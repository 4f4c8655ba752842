-- SUMMARY: The registers an emitted program reads are among those its preamble seeds.
import Ect.Lowering.RegisterChecks
import Ect.Lowering.Registers
import Ect.Lowering.WellFormed
import Ect.Translate.ReadsCalls

/-!
# Seeded registers

The preamble gives a W64 value to every register that a scan of the program comes across.
The scan steps over the second slot of a wide immediate, the translator takes a second slot
for an instruction where a jump lands on one or a block ends with one. Where such a slot
mentions no register of its own, everything an emitted transformer reads is seeded.
-/

namespace Ect

open TransM

/-! ## What is seeded -/

/-- Running the rules leaves a W64 value in the header, whatever was in it before. -/
def Seeds (rules : List Rule) (h : Nat) : Prop :=
  ∀ (len : Nat → Nat) (σ : State), ∃ v, (runRules len σ rules).hdr h = .int .w64 v

/-- The first transformer seeds the header that is emitted at the end, and every register
header that a rule of the program reads. -/
def Program.Seeded (p : Program) : Prop :=
  ∃ pre rest, p.modules = pre :: rest ∧ Seeds pre.rules p.emitHdr ∧
    ∀ m ∈ p.modules, ∀ rule ∈ m.rules, ∀ r < numBpfRegs, rule.Reads (hReg r) →
      Seeds pre.rules (hReg r)

/-- The register is `r1`, or an instruction that the scan visits mentions it. -/
def Seen (insns : List Insn) (r : Nat) : Prop :=
  r = 1 ∨ ∃ k, Boundary insns k ∧ k < insns.length ∧ r ∈ mentionedRegs (insnAt insns k)

/-- Whatever is translated as an instruction mentions seen registers alone. -/
def TakenSeen (insns : List Insn) : Prop :=
  ∀ k, Walked insns k ∨ EndsAt insns k → ∀ r ∈ mentionedRegs (insnAt insns k), Seen insns r

def RegistersInRange (insns : List Insn) : Prop :=
  ∀ i ∈ insns, i.dst < numBpfRegs ∧ i.src < numBpfRegs

/-- The rule reads registers of the set alone. -/
def AllowedRule (S : Nat → Prop) (rule : Rule) : Prop :=
  ∀ r : Fin 16, rule.Reads (hReg r) → S r

section Scan

variable {insns : List Insn}

theorem mentionedRegs_lt {i : Insn} (hdst : i.dst < numBpfRegs) (hsrc : i.src < numBpfRegs) :
    ∀ r ∈ mentionedRegs i, r < numBpfRegs := by
  intro r hr
  have hcases : r = i.dst ∨ r = i.src ∨ r ≤ 2 := by
    unfold mentionedRegs at hr
    repeat' split at hr
    all_goals simp only [List.mem_cons, List.not_mem_nil, or_false] at hr <;> omega
  simp only [numBpfRegs] at hdst hsrc ⊢
  omega

theorem seen_lt (h : RegistersInRange insns) {r : Nat} (hr : Seen insns r) : r < numBpfRegs := by
  rcases hr with rfl | ⟨k, _, hlt, hmem⟩
  · decide
  · obtain ⟨hdst, hsrc⟩ := h (insnAt insns k) (by simp [insnAt, List.getD, hlt])
    exact mentionedRegs_lt hdst hsrc r hmem

/-- The scan marks what is seen. -/
theorem scanUsedRegs_iff (h : RegistersInRange insns) {r : Nat} :
    scanUsedRegs insns r = true ↔ Seen insns r := by
  have hany : ((scanFrom insns insns.length 0).any fun i =>
      (mentionedRegs (insnAt insns i)).contains r) = true ↔
      ∃ k, Boundary insns k ∧ k < insns.length ∧ r ∈ mentionedRegs (insnAt insns k) := by
    simp only [List.any_eq_true, mem_scan, List.contains_iff_mem, and_assoc]
  simp only [scanUsedRegs, Bool.and_eq_true, Bool.or_eq_true, decide_eq_true_eq, beq_iff_eq, hany]
  exact ⟨And.right, fun hr => ⟨seen_lt h hr, hr⟩⟩

/-- The preamble seeds what the scan marks. -/
theorem preamble_seeds {used : Nat → Bool} {r : Nat} (hr : r < numBpfRegs) (hu : used r = true) :
    Seeds (preamble used) (hReg r) := by
  intro len σ
  refine ⟨0, ?_⟩
  have hne : hReg r ≠ hPc := hReg_ne_hPc r
  have hpc : ∀ σ : State, (setPcOp (blockPc 0) hPc).eval len σ =
      σ.setHdr hPc (.int .w64 (blockPc 0)) := fun _ => setPcOp_eval (by decide)
  simp only [preamble, runRules, Rule.fires, List.all_nil, if_true, runOps_append, runOps_zeroRegs,
    runOps_cons, runOps_nil]
  rw [hpc, State.setHdr_hdr, if_neg hne]
  simp [hReg, hr, hu]

end Scan

/-! ## What a block reads -/

section Block

variable {S : Nat → Prop} {insns : List Insn} {lead : Nat → Bool} {c : Config}
  {t t' : Translator} {st st' : AbsState} {ops : List Op} {flow : Flow}

theorem translateBody_reads {e fuel i : Nat} (he : e ≤ insns.length) (hst : TagsSeen S st)
    (h : ∀ k, WalkTo insns e i k → ∀ r ∈ mentionedRegs (insnAt insns k), S r) :
    ReadsIn S (translateBody insns e fuel i st) (TagsSeen S) := by
  induction fuel generalizing i st with
  | zero => exact .pure hst
  | succ fuel ih =>
    refine .ite (fun hlt => ?_) fun _ => .pure hst
    refine ((translateOne_reads hst (h i (.here hlt))).gives translateOne_slots).bind ?_
    rintro ⟨k, st'⟩ ⟨hst', hk⟩
    refine ih hst' fun j hj => ?_
    rcases hk with rfl | ⟨rfl, hend⟩
    · exact h j (.next hlt hj)
    · have := hj.lt
      omega

/-- The arms of the second transformer read registers of the set alone. -/
def AllowedFlow (S : Nat → Prop) (flow : Flow) : Prop :=
  ∀ arms, flow.arms = some arms →
    ∀ a ∈ arms, (∀ e ∈ a.1, AllowedEntry S e) ∧ ∀ op ∈ a.2.1, AllowedOp S op

theorem mentionedRegs_call {i : Insn} (hjmp : i.endsBlock = true) (hop : i.jmpOp = .call) :
    mentionedRegs i = [0, 1, 2] := by
  have hj : i.isJmp = true := by
    simp only [Insn.endsBlock, Bool.and_eq_true] at hjmp
    exact hjmp.1
  have hld := Insn.isLdImm64_eq_false_of_isJmp hj
  simp only [Insn.isJmp, Bool.or_eq_true, beq_iff_eq] at hj
  rcases hj with hcls | hcls <;> simp [mentionedRegs, hld, hcls, hop]

theorem TermLowered.reads {k : Nat} (h : TermLowered insns lead c k st t flow st' t' ops)
    (hwf : t.WF) (hst : TagsSeen S st)
    (hm : (insnAt insns (k - 1)).endsBlock = true →
      ∀ r ∈ mentionedRegs (insnAt insns (k - 1)), S r) :
    t'.WF ∧ TagsSeen S st' ∧ (∀ op ∈ ops, AllowedOp S op) ∧ AllowedFlow S flow := by
  cases h with
  | fall | exit | ja => exact ⟨hwf, hst, by simp, by rintro _ ⟨⟩⟩
  | @call arms _ _ _ h hop hcall =>
    rw [mentionedRegs_call h hop] at hm
    obtain ⟨hwf', ⟨harms, hst'⟩, hops⟩ :=
      translateCall_reads hst (hm h 0 (by simp)) (hm h 2 (by simp)) _ _ _ _ _ hwf hcall
    refine ⟨hwf', hst', hops, ?_⟩
    cases arms with
    | none => rintro _ ⟨⟩
    | some as =>
      rintro _ ⟨⟩ a ha
      obtain ⟨a', ha', rfl⟩ := List.mem_map.mp ha
      exact harms as rfl a' ha'
  | @cond e swap _ _ h hop hcond =>
    simp only [Insn.branches, Insn.endsBlock, Bool.and_eq_true, bne_iff_ne] at h
    obtain ⟨⟨⟨hj, hnop⟩, hexit⟩, hcall⟩ := h
    have hmen := hm (by simp [Insn.endsBlock, hj, hnop])
    rw [mentionedRegs_cond hj hop hexit hcall] at hmen
    have hsrcX : ∀ i : Insn, i.isImm = false → i.srcX = true := fun i h => by
      simpa [Insn.isImm] using h
    obtain ⟨hwf', hentry, hops⟩ := emitCondition_reads (hmen _ (by split <;> simp))
      (fun himm => hmen _ (by rw [if_pos (hsrcX _ himm)]; simp)) _ _ _ _ _ hwf hcond
    refine ⟨hwf', hst, hops, ?_⟩
    rintro _ ⟨⟩ a ha
    rcases List.mem_pair.mp ha with rfl | rfl
    · refine ⟨fun e' he => ?_, by simp⟩
      obtain rfl := List.mem_singleton.mp he
      exact hentry _ rfl
    · exact ⟨by simp, by simp⟩

theorem pcEntry_allowed (pc : Nat) : AllowedEntry S (pcEntry pc) :=
  allowedEntry_const ⟨fun r h => absurd h.symm (hReg_ne_hPc r)⟩

/-- The rules of a block read what its operations, its match entries and its arms read. -/
theorem blockModules_allowed {start : Nat} (hops : ∀ op ∈ ops, AllowedOp S op)
    (hflow : AllowedFlow S flow) :
    ∀ m ∈ blockModules start flow ops, ∀ rule ∈ m, AllowedRule S rule := by
  have hpc : ∀ pc, AllowedOp S (setPcOp pc hPc) := fun pc => by unfold setPcOp; infer_instance
  have hrule : ∀ (es : List MatchEntry) (o : List Op) (p q : Nat), (∀ e ∈ es, AllowedEntry S e) →
      (∀ op ∈ o, AllowedOp S op) →
      AllowedRule S ⟨pcEntry p :: es, o ++ [setPcOp q hPc]⟩ := by
    rintro es o p q hes ho r (⟨e, he, hr⟩ | ⟨op, hop, hr⟩)
    · rcases List.mem_cons.mp he with rfl | he
      · exact pcEntry_allowed p r hr
      · exact hes e he r hr
    · rcases List.mem_append.mp hop with hop | hop
      · exact (ho op hop).reads r hr
      · rw [List.mem_singleton.mp hop] at hr
        exact (hpc q).reads r hr
  have hclose : ∀ rules : List Rule, (∀ rule ∈ rules, AllowedRule S rule) →
      ∀ rule ∈ closeRules rules, AllowedRule S rule := by
    intro rules hrules rule hmem
    rcases List.mem_append.mp hmem with hmem | hmem
    · exact hrules rule hmem
    · rw [List.mem_singleton.mp hmem]
      rintro r (⟨_, ⟨⟩, _⟩ | ⟨_, ⟨⟩, _⟩)
  have hsingle : ∀ q, ∀ rule ∈ closeRules [⟨[pcEntry (blockPc start)], ops ++ [setPcOp q hPc]⟩],
      AllowedRule S rule := fun q => hclose _ fun rule hmem => by
    rw [List.mem_singleton.mp hmem]
    exact hrule [] ops _ _ (by simp) hops
  intro m hm
  cases harms : flow.arms with
  | none =>
    rw [blockModules_of_no_arms harms, List.mem_singleton] at hm
    exact hm ▸ hsingle _
  | some arms =>
    rw [blockModules_of_arms harms] at hm
    rcases List.mem_pair.mp hm with rfl | rfl
    · exact hsingle _
    · refine hclose _ fun rule hmem => ?_
      obtain ⟨a, ha, rfl⟩ := List.mem_map.mp hmem
      obtain ⟨hes, ho⟩ := hflow arms harms a ha
      exact hrule a.1 a.2.1 _ _ hes ho

theorem joinReg_plain {a b : RegInfo} (ha : a.Plain) (hb : b.Plain) : (joinReg a b).Plain := by
  obtain ⟨hat, ham⟩ := ha
  obtain ⟨hbt, hbm⟩ := hb
  simp [joinReg, RegInfo.Plain, hat, ham, hbt, hbm]

theorem TagsSeen.joinFrom {src : AbsState} (h : TagsSeen S st) (h' : TagsSeen S src) :
    TagsSeen S (st.joinFrom src) := by
  unfold AbsState.joinFrom
  split
  · exact h
  split
  · exact h'
  · intro r hr
    by_cases hp : (st.reg r).Plain
    · exact h' r fun hp' => hr (joinReg_plain hp hp')
    · exact h r hp

theorem propagate_tags {blockIn : Nat → AbsState} (hin : ∀ b, TagsSeen S (blockIn b))
    (hst : TagsSeen S st) (b : Nat) : TagsSeen S (propagate blockIn st flow b) := by
  have hjoin : ∀ {blockIn : Nat → AbsState} {src : AbsState} (succ : Option Nat),
      (∀ b, TagsSeen S (blockIn b)) → TagsSeen S src →
      ∀ b, TagsSeen S (joinInto blockIn src succ b) := by
    intro blockIn src succ hin hsrc b
    cases succ with
    | none => exact hin b
    | some s =>
      simp only [joinInto]
      split
      · exact (hin s).joinFrom hsrc
      · exact hin b
  have hlive : TagsSeen S { st with live := true } := hst
  exact hjoin flow.takeBlk (hjoin flow.fallBlk hin hlive) hlive b

end Block

/-! ## The whole program -/

section Program

variable {S : Nat → Prop} {insns : List Insn} {lead : Nat → Bool} {c : Config}
  {t t' : Translator} {ops : List Op} {mods : List (List Rule)}

theorem translateBlocks_allowed
    (hlead : ∀ k, k < insns.length → (lead k = true ↔ IsLeader insns k))
    (hm : ∀ k, Walked insns k ∨ EndsAt insns k → ∀ r ∈ mentionedRegs (insnAt insns k), S r)
    {bs : List Nat} (hbs : ∀ b ∈ bs, b < (blockStarts insns.length lead).length)
    {blockIn : Nat → AbsState} (hin : ∀ b, TagsSeen S (blockIn b)) (hwf : t.WF)
    (h : (translateBlocks insns lead bs blockIn).Accepts c t mods t' ops) :
    ∀ m ∈ mods, ∀ rule ∈ m, AllowedRule S rule := by
  induction bs generalizing blockIn t t' mods ops with
  | nil =>
    obtain ⟨rfl, _, _⟩ := accepts_pure.mp h
    simp
  | cons b bs ih =>
    obtain ⟨s, e, hb⟩ := isBlock (hbs b (by simp))
    have hspan := hb.span hlead
    have hlt := hb.start_lt
    unfold translateBlocks at h
    obtain ⟨⟨bmods, blockIn'⟩, t₁, o₁, hblock, _, h₁, rfl⟩ := accepts_bind.mp h
    obtain ⟨rest, t₂, o₂, hrest, _, hret, rfl⟩ := accepts_bind.mp h₁
    obtain ⟨rfl, _, _⟩ := accepts_pure.mp hret
    obtain ⟨_, st', flow, o, ⟨st₁, t₃, o₃, o₄, hbody, hterm, rfl⟩, rfl, rfl⟩ :=
      translateBlock_accepts hb hblock
    have hst : TagsSeen S (if (blockIn b).live then blockIn b else .init) := by
      split
      · exact hin b
      · exact fun r hr => absurd ⟨rfl, rfl⟩ hr
    obtain ⟨hwf₃, hst₁, hops₃⟩ := translateBody_reads (bodyEnd_le hb.end_le) hst
      (fun k hk => hm k (.inl ⟨s, e, hspan, hk⟩)) _ _ _ _ _ hwf hbody
    obtain ⟨hwf₁, hst', hops₄, hflow⟩ := (translateTerm_accepts hterm).reads hwf₃ hst₁ fun hends =>
      hm (e - 1) (.inr ⟨hends, s, by rwa [Nat.sub_add_cancel (by omega)]⟩)
    intro m hmem
    rcases List.mem_append.mp hmem with hmem | hmem
    · refine blockModules_allowed (fun op hop => ?_) hflow m hmem
      rcases List.mem_append.mp hop with hop | hop
      · exact hops₃ op hop
      · exact hops₄ op hop
    · exact ih (fun b' hb' => hbs b' (by simp [hb'])) (propagate_tags hin hst') hwf₁ hrest m hmem

/-- Where the second slots that are translated bring in no register of their own, and `r0` is
mentioned, every register the emitted program reads is seeded by its preamble. -/
theorem preamble_seeds_reads (hregs : RegistersInRange insns) (htaken : TakenSeen insns)
    (hret : Seen insns 0) (h : (translateProgram insns).Accepts c .init mods t' ops) :
    (emitProgram c mods).Seeded := by
  unfold translateProgram at h
  obtain ⟨lead, t₀, o₀, hfind, _, h₁, rfl⟩ := accepts_bind.mp h
  obtain ⟨rest, t₁, o₁, hblocks, _, h₂, rfl⟩ := accepts_bind.mp h₁
  obtain ⟨rfl, rfl, rfl⟩ := accepts_pure.mp h₂
  obtain ⟨rfl, rfl, hleaders⟩ := findLeaders_accepts hfind
  have hentry : ∀ b, TagsSeen (Seen insns) (entryStates b) := by
    intro b r hr
    by_contra hno
    simp only [not_or] at hno
    have h1 : r ≠ 1 := fun h1 => hno.1 (.inl h1)
    refine hr ?_
    unfold entryStates entryState
    split <;> simp [RegInfo.Plain, h1, hno.2, AbsState.init, RegInfo.scalar]
  have hallowed := translateBlocks_allowed (fun k _ => hleaders.isLeader_iff k) htaken
    (fun b hb => List.mem_range.mp hb) hentry Translator.init_wf hblocks
  have hseeds : ∀ r, Seen insns r → Seeds (preamble (scanUsedRegs insns)) (hReg r) := fun r hr =>
    preamble_seeds (seen_lt hregs hr) ((scanUsedRegs_iff hregs).mpr hr)
  refine ⟨_, _, rfl, hseeds 0 hret, fun m hm rule hrule r hr hreads => hseeds r ?_⟩
  have hm' : m.rules ∈ preamble (scanUsedRegs insns) :: rest := by
    have := List.mem_map_of_mem (f := Transformer.rules) hm
    rwa [show (emitProgram c _).modules.map Transformer.rules = _ from numberModules_rules _]
      at this
  have hr16 : r < 16 := Nat.lt_trans hr (by decide)
  rcases List.mem_cons.mp hm' with hpre | hrest
  · -- the preamble itself reads nothing
    rw [hpre, preamble, List.mem_singleton] at hrule
    rw [hrule] at hreads
    rcases hreads with ⟨_, ⟨⟩, _⟩ | ⟨op, hop, hreads⟩
    rcases List.mem_append.mp hop with hop | hop
    · obtain ⟨_, _, rfl⟩ := List.mem_map.mp hop
      exact (hreads.elim id id).elim
    · rw [List.mem_singleton.mp hop] at hreads
      exact (hreads.elim id id).elim
  · exact hallowed _ hrest rule hrule ⟨r, hr16⟩ hreads

/-- Without wide immediates there is no second slot to be taken. -/
theorem takenSeen_of_narrow (h : ∀ i ∈ insns, i.isLdImm64 = false) : TakenSeen insns := by
  intro k hk r hr
  have hlt : k < insns.length := by
    rcases hk with ⟨s, e, hspan, hwalk⟩ | ⟨_, s, hspan⟩
    · exact Nat.lt_of_lt_of_le hwalk.lt.2 (bodyEnd_le hspan.end_le)
    · exact hspan.end_le
  rcases boundary_or_second (Nat.le_of_lt hlt) with hb | ⟨i, _, hwide, rfl⟩
  · exact .inr ⟨k, hb, hlt, hr⟩
  · have hmem : insnAt insns i ∈ insns := by
      simp [insnAt, List.getD, show i < insns.length by omega]
    rw [h _ hmem] at hwide
    cases hwide

/-- `r6 = r1; r0 = r6; exit`. -/
def copyProgram : List Insn :=
  [⟨0xbf, 6, 1, 0, 0⟩, ⟨0xbf, 0, 6, 0, 0⟩, ⟨0x95, 0, 0, 0, 0⟩]

theorem copyProgram_seeded : ∃ mods,
    (translateProgram copyProgram).result xdpConfig .init = some mods ∧
      (emitProgram xdpConfig mods).Seeded := by
  have hsome : ((translateProgram copyProgram).result xdpConfig .init).isSome := by
    decide +kernel
  obtain ⟨mods, hmods⟩ := Option.isSome_iff_exists.mp hsome
  obtain ⟨t', ops, hacc⟩ := accepts_of_result hmods
  have hregs : RegistersInRange copyProgram := by unfold RegistersInRange; decide
  have hret : Seen copyProgram 0 := (scanUsedRegs_iff hregs).mp (by decide)
  exact ⟨mods, hmods, preamble_seeds_reads hregs (takenSeen_of_narrow (by decide)) hret hacc⟩

/-- A jump to the second slot of a wide immediate, which reads as `r5 = r6`. -/
def hiddenReadProgram : List Insn :=
  [⟨0x05, 0, 0, 1, 0⟩, ⟨0x18, 0, 0, 0, 7⟩, ⟨0xbf, 5, 6, 0, 0⟩, ⟨0x95, 0, 0, 0, 0⟩]

/-- The translation reports nothing, and reads a register that no preamble rule assigns. -/
theorem hiddenReadProgram_counterexample : RegistersInRange hiddenReadProgram ∧ ∃ mods,
    (translateProgram hiddenReadProgram).result xdpConfig .init = some mods ∧
      ¬(emitProgram xdpConfig mods).Seeded := by
  refine ⟨by unfold RegistersInRange; decide, [preamble (scanUsedRegs hiddenReadProgram),
    closeRules [⟨[pcEntry (blockPc 0)], [setPcOp (blockPc 2) hPc]⟩],
    closeRules [⟨[pcEntry (blockPc 1)], [setOp (hReg 0) 7, setPcOp (blockPc 2) hPc]⟩],
    closeRules [⟨[pcEntry (blockPc 2)], [moveOp (hReg 5) (hReg 6), setPcOp pcHalt hPc]⟩]],
    by decide +kernel, ?_⟩
  rintro ⟨pre, rest, hmods, _, hall⟩
  obtain rfl := (List.cons.inj hmods).1
  have hseeds := hall _ (.tail _ (.tail _ (.tail _ (.head _)))) _ (.head _) 6 (by decide)
    (.inr ⟨_, .head _, .inl rfl⟩)
  -- the header keeps whatever it held before
  obtain ⟨v, hv⟩ := hseeds (fun _ => 0) (State.initial fun _ _ => none)
  have huninit : (runRules (fun _ => 0) (State.initial fun _ _ => none)
      (preamble (scanUsedRegs hiddenReadProgram))).hdr (hReg 6) = .uninit := by decide +kernel
  rw [huninit] at hv
  cases hv

end Program

end Ect
