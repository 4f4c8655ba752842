-- SUMMARY: When code no path reaches leaves the translation of the rest alone.
import Ect.Lowering.Flow

/-!
# Unreachable code

The translator also translates the blocks that no path from the entry reaches, from a state
in which nothing is known, and joins what they end with into the blocks they flow to. A
reachable block is therefore affected by an unreachable one exactly along the edges between
them; without such edges it is translated as if the unreachable code were not there.
-/

namespace Ect

open LittleEndian TransM

open Classical in
/-- The blocks of a translation that a path from the entry reaches. -/
noncomputable def reached (insns : List Insn) (traces : List BlockTrace) : List BlockTrace :=
  traces.filter fun q => Reachable insns q.start

/-- On entry to a reachable block the translator knows the join of what flows there from
reachable blocks. -/
def EntryJoins (c : Config) (insns : List Insn) : Prop :=
  ∀ r ∈ programTraces insns c, Reachable insns r.start →
    r.entry = joinAll (entryStates r.b)
      ((reached insns (programTraces insns c)).flatMap (·.edgesTo r.b))

/-- No unreachable block flows into a reachable one, and none indexes the register file with
a number that is out of range. -/
structure Isolated (insns : List Insn) : Prop where
  flow : ∀ s s', Edge insns s s' → Reachable insns s' → Reachable insns s
  registers : ∀ s e k, BlockSpan insns s e → ¬Reachable insns s →
    WalkTo insns (bodyEnd insns e) s k →
    Truncated insns k ∨ ∀ r ∈ (insnAt insns k).indexed, r < numBpfRegs

section Edges

variable {insns : List Insn} {lead : Nat → Bool}
  (hlead : ∀ k, k < insns.length → (lead k = true ↔ IsLeader insns k))

include hlead

omit hlead in
theorem flowsTo_lt {e k : Nat} (h : FlowsTo insns e k) : k < insns.length := by
  rcases h with h | h
  · unfold fallPos at h
    dsimp only at h
    split at h
    · cases h
    · split at h
      · obtain rfl := Option.some.inj h
        assumption
      · cases h
  · unfold takePos at h
    dsimp only at h
    split at h
    · obtain rfl := Option.some.inj h
      omega
    · cases h

/-- A position lies in the block that has its number. -/
theorem mem_of_blockOf {b s e k : Nat} (h : IsBlock insns lead b s e) (hk : k < insns.length)
    (hb : blockOf lead k = b) : s ≤ k ∧ k < e := by
  have h0 : lead 0 = true := (hlead 0 (by omega)).mpr (.inl rfl)
  obtain ⟨b', s', e', hblock, hs, he⟩ := exists_block h0 hk
  obtain rfl : b' = b := (blockOf_of_mem hblock hs he).symm.trans hb
  obtain rfl := Option.some.inj (h.start_eq.symm.trans hblock.start_eq)
  obtain rfl : e = e' := h.end_eq.symm.trans hblock.end_eq
  exact ⟨hs, he⟩

theorem flowsTo_of_edgesTo {q : BlockTrace} {e b s' e' : Nat} (hflow : FlowOf insns lead e q.flow)
    (h : q.edgesTo b ≠ []) (hb : IsBlock insns lead b s' e') :
    ∃ k, FlowsTo insns e k ∧ s' ≤ k ∧ k < e' := by
  have hmap : ∀ {p : Option Nat}, p.map (blockOf lead) = some b → ∃ k, p = some k ∧
    blockOf lead k = b := by
    intro p hp
    exact Option.map_eq_some_iff.mp hp
  by_cases hfall : q.flow.fallBlk = some b
  · obtain ⟨k, hk, hof⟩ := hmap (hflow.fallBlk.symm.trans hfall)
    exact ⟨k, .inl hk, mem_of_blockOf hlead hb (flowsTo_lt (.inl hk)) hof⟩
  · by_cases htake : q.flow.takeBlk = some b
    · obtain ⟨k, hk, hof⟩ := hmap (hflow.takeBlk.symm.trans htake)
      exact ⟨k, .inr hk, mem_of_blockOf hlead hb (flowsTo_lt (.inr hk)) hof⟩
    · simp [BlockTrace.edgesTo, hfall, htake] at h

theorem edge_of_edgesTo {q : BlockTrace} {e b s' e' : Nat} (hq : IsBlock insns lead q.b q.start e)
    (hflow : FlowOf insns lead e q.flow) (h : q.edgesTo b ≠ []) (hb : IsBlock insns lead b s' e') :
    Edge insns q.start s' := by
  obtain ⟨k, hk, hs, he⟩ := flowsTo_of_edgesTo hlead hflow h hb
  exact ⟨e, k, e', hq.span hlead, hk, hb.span hlead, hs, he⟩

/-- Blocks flow to later blocks. -/
theorem lt_of_edgesTo (hfwd : ForwardOnly insns) {q : BlockTrace} {e b s' e' : Nat}
    (hq : IsBlock insns lead q.b q.start e) (hflow : FlowOf insns lead e q.flow)
    (h : q.edgesTo b ≠ []) (hb : IsBlock insns lead b s' e') : q.b < b := by
  obtain ⟨k, hk, hs, he⟩ := flowsTo_of_edgesTo hlead hflow h hb
  have hle := hfwd q.start e k (hq.span hlead) hk
  have hlt := hq.start_lt
  have hend := hb.end_le
  refine (starts_lt hq.start_eq hb.start_eq).mpr ?_
  -- the end of the block is a leader, so it is not inside the other one
  by_contra hge
  have hinner := hb.inner e (by omega) (by omega)
  rw [(hq.end_lead (by omega)).1] at hinner
  cases hinner

end Edges

theorem flatMap_filter_of_nil {α β : Type} {p : α → Bool} {f : α → List β} {xs : List α}
    (h : ∀ x ∈ xs, p x = false → f x = []) : (xs.filter p).flatMap f = xs.flatMap f := by
  induction xs with
  | nil => rfl
  | cons x xs ih =>
    have ih := ih fun y hy => h y (by simp [hy])
    cases hx : p x with
    | true => simp [hx, ih]
    | false => simp [hx, ih, h x (by simp) hx]

/-- Without edges from unreachable blocks, the entry states of the reachable ones are the
joins over the reachable blocks. -/
theorem entryJoins {insns : List Insn} (c : Config) (hfwd : ForwardOnly insns)
    (hflow : ∀ s s', Edge insns s s' → Reachable insns s' → Reachable insns s) :
    EntryJoins c insns := by
  intro r hr hreach
  obtain ⟨lead, t, hlead, _, htraces⟩ := programTraces_eq (c := c)
  rw [htraces] at hr ⊢
  obtain ⟨hpair, hblocks⟩ := @blockTraces_blocks insns c lead
    ((blockStarts insns.length lead).length) 0 _ .init (by simp)
  obtain ⟨_, e, hb, _⟩ := hblocks r hr
  obtain ⟨pre, post, hsplit⟩ := List.append_of_mem hr
  rw [blockTraces_entry hsplit]
  congr 1
  rw [reached, flatMap_filter_of_nil]
  · rw [hsplit] at hpair hblocks ⊢
    have hlater : ∀ q ∈ r :: post, q.edgesTo r.b = [] := by
      intro q hq
      obtain ⟨_, e', hb', hflow'⟩ := hblocks q (List.mem_append_right _ hq)
      by_contra hne
      have hlt := lt_of_edgesTo hlead hfwd hb' hflow' hne hb
      rcases List.mem_cons.mp hq with rfl | hq
      · omega
      · have := (List.pairwise_cons.mp (List.pairwise_append.mp hpair).2.1).1 q hq
        omega
    rw [List.flatMap_append, List.flatMap_eq_nil_iff.mpr hlater, List.append_nil]
  · intro q hq hun
    obtain ⟨_, e', hb', hflow'⟩ := hblocks q hq
    by_contra hne
    have hun : ¬Reachable insns q.start := by simpa using hun
    exact hun (hflow _ _ (edge_of_edgesTo hlead hb' hflow' hne hb) hreach)

/-! ## The same block in two programs -/

/-- The same instruction, but for where it jumps. -/
structure SameInsn (i i' : Insn) : Prop where
  code : i'.code = i.code
  dst : i'.dst = i.dst
  src : i'.src = i.src
  imm : i'.imm = i.imm
  ends : i'.endsBlock = i.endsBlock
  off : i.endsBlock = false → i'.off = i.off

theorem SameInsn.eq {i i' : Insn} (h : SameInsn i i') : i' = { i with off := i'.off } := by
  obtain ⟨code, dst, src, off, imm⟩ := i'
  obtain ⟨rfl, rfl, rfl, rfl, _, _⟩ := h
  rfl

/-- The code of a block of `len` instructions, which starts at `w.pos` in one program and at
`w.pos'` in the other. -/
structure SameCode (w : Twin) (insns insns' : List Insn) (len : Nat) : Prop where
  insn : ∀ j, j < len → SameInsn (insnAt insns (w.pos + j)) (insnAt insns' (w.pos' + j))
  map : ∀ j, j < len → w.insnMapIdx' (w.pos' + j) = w.c.insnMapIdx (w.pos + j)
  wide : ∀ j, j < len → (insnAt insns (w.pos + j)).isLdImm64 = true →
    (w.pos + j + 1 < insns.length ↔ w.pos' + j + 1 < insns'.length) ∧
      (w.pos + j + 1 < insns.length →
        (insnAt insns' (w.pos' + j + 1)).imm = (insnAt insns (w.pos + j + 1)).imm)

section Block

variable {w : Twin} {insns insns' : List Insn} {len : Nat} {t t' : Translator} {st : AbsState}

instance {j : Nat} {i : Insn} :
    Alike w (translatePlain (w.pos + j) i st) (translatePlain (w.pos' + j) i st) := by
  unfold translatePlain
  dsimp only
  split <;> infer_instance

theorem translateLdImm64_runs (h : SameCode w insns insns' len) {j : Nat} (hj : j < len)
    (hwide : (insnAt insns (w.pos + j)).isLdImm64 = true)
    (heq : insnAt insns' (w.pos' + j) = insnAt insns (w.pos + j)) (hal : Twin.Aligned t t') :
    w.Runs t t' (translateLdImm64 (w.pos + j) insns st) (translateLdImm64 (w.pos' + j) insns' st)
      fun _ _ a a' => a' = a := by
  obtain ⟨hlt, himm⟩ := h.wide j hj hwide
  unfold translateLdImm64
  dsimp only
  rw [heq]
  by_cases hend : w.pos + j + 1 ≥ insns.length
  · rw [if_pos hend, if_pos (show w.pos' + j + 1 ≥ insns'.length by omega)]
    exact Alike.runs hal
  · have hupper : (insnAt insns' (w.pos' + j + 1)).imm32 =
      (insnAt insns (w.pos + j + 1)).imm32 := by
      unfold Insn.imm32
      rw [himm (by omega)]
    rw [if_neg hend, if_neg (show ¬w.pos' + j + 1 ≥ insns'.length by omega), hupper]
    refine .config ?_
    have hmap : w.c'.insnMapIdx (w.pos' + j) = w.c.insnMapIdx (w.pos + j) := h.map j hj
    rw [hmap]
    cases w.c.insnMapIdx (w.pos + j) with
    | none => exact Alike.runs hal
    | some m => exact Alike.runs hal

theorem translateOne_runs (h : SameCode w insns insns' len) {j : Nat} (hj : j < len)
    (hst : Twin.Started t t') :
    w.Runs t t' (translateOne (w.pos + j) insns st) (translateOne (w.pos' + j) insns' st)
      fun _ _ a a' => a' = a := by
  have hsame := h.insn j hj
  unfold translateOne
  refine hst.setTmpNext.bind fun _ _ _ _ hal _ _ _ => ?_
  cases hends : (insnAt insns (w.pos + j)).endsBlock with
  | false =>
    have heq : insnAt insns' (w.pos' + j) = insnAt insns (w.pos + j) := by
      rw [hsame.eq, hsame.off hends]
    rw [heq]
    refine .ite (fun _ => .pure hal rfl) fun _ =>
      .ite (fun hwide => translateLdImm64_runs h hj hwide heq hal) fun _ => Alike.runs hal
  | true =>
    -- a jump in the straight line is refused whatever its target is
    have hskip : ∀ i : Insn, i.endsBlock = true → i.isNopJump = false ∧ i.isLdImm64 = false ∧
        (i.cls = .jmp ∨ i.cls = .jmp32) := by
      intro i hi
      simp only [Insn.endsBlock, Bool.and_eq_true, Bool.not_eq_true'] at hi
      exact ⟨hi.2, Insn.isLdImm64_eq_false_of_isJmp hi.1, by simpa [Insn.isJmp] using hi.1⟩
    have hplain : ∀ idx i, (i.cls = .jmp ∨ i.cls = .jmp32) → translatePlain idx i st = (do
        let cls := (i.code &&& 0x07#8).toNat
        unsupported idx s!"instruction class 0x{hex cls}"
        pure st) := by
      intro idx i hcls
      unfold translatePlain
      rcases hcls with hcls | hcls <;> rw [hcls]
    obtain ⟨hnop, hwide, hcls⟩ := hskip _ hends
    obtain ⟨hnop', hwide', hcls'⟩ := hskip _ (hsame.ends.trans hends)
    rw [hnop, hnop', hwide, hwide', hplain _ _ hcls, hplain _ _ hcls', hsame.code]
    simp only [Bool.false_eq_true, if_false]
    exact Alike.runs hal

theorem translateBody_runs (h : SameCode w insns insns' len) {stop : Nat} (hstop : stop ≤ len)
    {fuel j : Nat} (hst : Twin.Started t t') :
    w.RunsTo Twin.Started t t' (translateBody insns (w.pos + stop) fuel (w.pos + j) st)
      (translateBody insns' (w.pos' + stop) fuel (w.pos' + j) st) fun _ _ a a' => a' = a := by
  induction fuel generalizing j st t t' with
  | zero => exact .pure hst rfl
  | succ fuel ih =>
    unfold translateBody
    by_cases hlt : j < stop
    · rw [if_pos (by omega), if_pos (by omega)]
      refine (translateOne_runs h (by omega) hst).bind fun _ _ a a' hal _ _ heq => ?_
      subst heq
      obtain ⟨k, st₁⟩ := a'
      dsimp only
      rw [Nat.add_assoc, Nat.add_assoc]
      exact ih hal.toStarted
    · rw [if_neg (by omega), if_neg (by omega)]
      exact .pure hst rfl

/-- What the ends of the same block have in common: what decides where control goes. -/
def SameEnd (t t' : Translator) (p p' : Flow × AbsState) : Prop :=
  SameCond t t' (p.1.cond, p.1.condSwap) (p'.1.cond, p'.1.condSwap) ∧
    SameOptArms t t' p.1.mapArms p'.1.mapArms ∧ p'.2 = p.2

theorem translateTerm_runs {lead lead' : Nat → Bool} {j : Nat}
    (h : SameInsn (insnAt insns (w.pos + j)) (insnAt insns' (w.pos' + j)))
    (hst : Twin.Started t t') :
    w.RunsTo Twin.Started t t' (translateTerm insns lead (w.pos + j + 1) st)
      (translateTerm insns' lead' (w.pos' + j + 1) st) SameEnd := by
  have hends : ((insnAt insns' (w.pos' + j)).isJmp && !(insnAt insns' (w.pos' + j)).isNopJump) =
      ((insnAt insns (w.pos + j)).isJmp && !(insnAt insns (w.pos + j)).isNopJump) := h.ends
  have hop : (insnAt insns' (w.pos' + j)).jmpOp = (insnAt insns (w.pos + j)).jmpOp := by
    rw [h.eq]; rfl
  have hcond : jmpIsConditional (insnAt insns' (w.pos' + j)) =
      jmpIsConditional (insnAt insns (w.pos + j)) := by
    rw [h.eq]; rfl
  have hemit : emitCondition (w.pos' + j) (insnAt insns' (w.pos' + j)) =
      emitCondition (w.pos' + j) (insnAt insns (w.pos + j)) := by
    rw [h.eq]; rfl
  have hcall : ∀ st, translateCall (w.pos' + j) (insnAt insns' (w.pos' + j)) st =
      translateCall (w.pos' + j) (insnAt insns (w.pos + j)) st := by
    intro st
    rw [h.eq]; rfl
  unfold translateTerm
  simp only [Nat.add_sub_cancel, hends, hop, hcond, hemit, hcall]
  refine .ite (fun _ => .pure hst ⟨⟨.none, rfl⟩, .none, rfl⟩) fun _ => ?_
  refine .ite (fun _ => (emitCondition_runs hst).loose.bind fun _ _ p p' hst _ _ hp => ?_) fun _ =>
    Twin.RunsTo.bind (R := SameCond) (.pure hst ⟨.none, rfl⟩) fun _ _ p p' hst _ _ hp => ?_
  all_goals
    cases (insnAt insns (w.pos + j)).jmpOp
    case exit => exact .pure hst ⟨⟨.none, rfl⟩, .none, rfl⟩
    case call =>
      refine (translateCall_runs hst).bind fun _ _ a a' hst _ _ ha => ?_
      exact .pure hst ⟨⟨.none, rfl⟩, ha.1, ha.2⟩
    case ja => exact .pure hst ⟨⟨.none, rfl⟩, .none, rfl⟩
    all_goals exact .pure hst ⟨hp, .none, rfl⟩

theorem runBlock_runs {lead lead' : Nat → Bool} {b b' : Nat} {blockIn blockIn' : Nat → AbsState}
    (h : SameCode w insns insns' len) (hlen : 0 < len)
    (hb : IsBlock insns lead b w.pos (w.pos + len))
    (hb' : IsBlock insns' lead' b' w.pos' (w.pos' + len)) (hin : blockIn' b' = blockIn b)
    (hst : Twin.Started t t') :
    w.RunsTo Twin.Started t t' (runBlock insns lead b blockIn) (runBlock insns' lead' b' blockIn')
      fun t t' a a' => SameEnd t t' a.1 a'.1 ∧ SameOps t t' a.2 a'.2 := by
  have hs : (blockStarts insns.length lead).getD b 0 = w.pos := by simp [List.getD, hb.start_eq]
  have hs' : (blockStarts insns'.length lead').getD b' 0 = w.pos' := by
    simp [List.getD, hb'.start_eq]
  obtain ⟨j, rfl⟩ : ∃ j, len = j + 1 := ⟨len - 1, by omega⟩
  have hlast := h.insn j (by omega)
  -- the straight line stops at the same place in both
  obtain ⟨stop, hstop, he, he'⟩ : ∃ stop, stop ≤ j + 1 ∧
      bodyEnd insns (w.pos + (j + 1)) = w.pos + stop ∧
      bodyEnd insns' (w.pos' + (j + 1)) = w.pos' + stop := by
    unfold bodyEnd
    rw [show w.pos + (j + 1) - 1 = w.pos + j by omega,
      show w.pos' + (j + 1) - 1 = w.pos' + j by omega, hlast.ends]
    cases (insnAt insns (w.pos + j)).endsBlock with
    | true => exact ⟨j, by omega, rfl, rfl⟩
    | false => exact ⟨j + 1, by omega, rfl, rfl⟩
  unfold runBlock
  simp only [hs, hs', hb.end_eq, hb'.end_eq, hin, he, he', Nat.add_sub_cancel_left]
  refine Twin.RunsTo.capture (Twin.RunsTo.bind (translateBody_runs (j := 0) h hstop hst)
    fun _ _ a a' hst _ _ heq => ?_)
  subst heq
  exact translateTerm_runs hlast hst

end Block

end Ect
