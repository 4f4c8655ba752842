-- SUMMARY: The shape of an emitted chain: one path, one guard per transformer, and a pc that only moves forward.
import Ect.Lowering.Frame

/-!
# Well-formed chains

The pc names the transformer that is to take effect next. A chain is well formed when
every pc a rule assigns is the halt pc or guards a transformer further down. The emitted
chain is, but for jumps in the second slot of a wide immediate: such a slot may end a
block, and no scan for leaders has looked at it.
-/

namespace Ect

open TransM

/-! ## Chains -/

/-- The operation assigns the pc. -/
def Op.AssignsPc (op : Op) : Prop := ¬op.Writes (· ≠ hPc)

/-- The transformer with these rules waits for the pc. -/
def Guarded (rules : List Rule) (pc : Nat) : Prop :=
  ∃ r ∈ rules, r.entries.head? = some (pcEntry pc)

/-- The pc halts the run, or guards one of the transformers that are left. -/
def HaltsOrGuards (later : List (List Rule)) (pc : Nat) : Prop :=
  pc = pcHalt ∨ ∃ m ∈ later, Guarded m pc

/-- Every pc a transformer assigns is the halt pc or guards a later transformer. -/
def MovesForward : List (List Rule) → Prop
  | [] => True
  | rules :: later =>
    (∀ r ∈ rules, ∀ op ∈ r.ops, op.AssignsPc → ∃ pc, op = setPcOp pc hPc ∧ HaltsOrGuards later pc) ∧
    MovesForward later

/-- The ids of the transformers that take effect in a run, in order: those with a rule that
fires and does something. -/
def effects (len : Nat → Nat) : State → List Transformer → List Nat
  | _, [] => []
  | σ, m :: ms =>
    (if (m.rules.find? (Rule.fires σ)).any (·.ops ≠ []) then [m.id] else []) ++
      effects len (m.run len σ) ms

/-- The chain is one path from the parser to the deparser through every transformer, each of
which ends with a default rule, waits for pcs of its own and sends the run forward; so that
none takes effect twice. -/
structure Program.WellFormed (p : Program) : Prop where
  ids : (modParser :: p.modules.map (·.id) ++ [modDeparser]).Nodup
  path : p.edges = (modParser :: p.modules.map (·.id)).zip (p.modules.map (·.id) ++ [modDeparser])
  default : ∀ m ∈ p.modules, ∃ rs r, m.rules = rs ++ [r] ∧ r.entries = []
  guards : p.modules.Pairwise fun m m' => ∀ pc, Guarded m.rules pc → ¬Guarded m'.rules pc
  forward : MovesForward (p.modules.map (·.rules))
  once : ∀ mem, (effects (regionLen p.regions) (State.initial mem) p.modules).Nodup

/-! ## The condition on the instructions -/

/-- A jump in the second slot of a wide immediate that ends a block leaves the program or
goes forward to a leader. -/
def WideJumpsForward (insns : List Insn) : Prop :=
  ∀ i, Boundary insns i → (insnAt insns i).isLdImm64 = true → i + 1 < insns.length →
    (i + 2 = insns.length ∨ IsLeader insns (i + 2)) → (insnAt insns (i + 1)).branches = true →
    ∀ k : Nat, jumpTarget (i + 1) (insnAt insns (i + 1)) = k → k < insns.length →
      i + 2 ≤ k ∧ IsLeader insns k

/-! ## The ids and the edges -/

section Numbering

variable {c : Config} {mods : List (List Rule)}

theorem numberModules_ids (mods : List (List Rule)) :
    (numberModules mods).map (·.id) = List.range' modFirstXfrm mods.length := by
  rw [numberModules, List.map_map, List.range'_eq_map_range, List.zipIdx_eq_zip_range',
    List.range'_eq_map_range]
  apply List.ext_getElem <;> simp

theorem numberModules_rules (mods : List (List Rule)) :
    (numberModules mods).map (·.rules) = mods := by
  simp [numberModules, Function.comp_def]

/-- Consecutive ids, with one before the first and one after the last. -/
theorem path_edges (n a first d : Nat) :
    (a :: List.range' first (n + 1)).zip (List.range' first (n + 1) ++ [d]) =
      (a, first) :: ((List.range' first n).map fun m => (m, m + 1)) ++ [(first + n, d)] := by
  induction n generalizing a first with
  | zero => rfl
  | succ n ih =>
    have hrec := ih first (first + 1)
    rw [List.range'_succ, List.cons_append, List.zip_cons_cons, hrec, List.range'_succ,
      List.map_cons, show first + (n + 1) = first + 1 + n by omega]
    rfl

theorem emitProgram_path (hne : mods ≠ []) :
    (emitProgram c mods).edges = (modParser :: (emitProgram c mods).modules.map (·.id)).zip
      ((emitProgram c mods).modules.map (·.id) ++ [modDeparser]) := by
  obtain ⟨n, hn⟩ := Nat.exists_eq_succ_of_ne_zero (mt List.length_eq_zero_iff.mp hne)
  have hids : (emitProgram c mods).modules.map (·.id) = List.range' modFirstXfrm (n + 1) := by
    rw [← Nat.succ_eq_add_one, ← hn]
    exact numberModules_ids mods
  rw [hids, path_edges]
  simp only [emitProgram, hn]
  rw [show modFirstXfrm + n.succ - 1 - modFirstXfrm = n by omega,
    show modFirstXfrm + n.succ - 1 = modFirstXfrm + n by omega]

theorem emitProgram_ids :
    (modParser :: (emitProgram c mods).modules.map (·.id) ++ [modDeparser]).Nodup := by
  have hids : (emitProgram c mods).modules.map (·.id) = List.range' modFirstXfrm mods.length :=
    numberModules_ids mods
  rw [hids, List.cons_append, List.nodup_cons, List.nodup_append]
  simp only [List.mem_append, List.mem_range'_1, List.mem_singleton, modParser, modDeparser,
    modFirstXfrm]
  exact ⟨by omega, List.nodup_range', by simp, fun a ha b hb => by omega⟩

/-- A transformer takes effect at its own place in the chain. -/
theorem effects_sublist (len : Nat → Nat) (σ : State) (ms : List Transformer) :
    (effects len σ ms).Sublist (ms.map (·.id)) := by
  induction ms generalizing σ with
  | nil => exact .slnil
  | cons m ms ih =>
    rw [effects, List.map_cons]
    split
    · exact (ih _).cons_cons m.id
    · exact (ih _).cons m.id

theorem emitProgram_once (mem : Nat → Nat → Cell) :
    (effects (regionLen (emitProgram c mods).regions) (State.initial mem)
      (emitProgram c mods).modules).Nodup := by
  have hids := @emitProgram_ids c mods
  rw [List.cons_append, List.nodup_cons, List.nodup_append] at hids
  exact (effects_sublist _ _ _).nodup hids.2.1

end Numbering

/-! ## Operations leave the pc alone -/

section OffPc

variable {insns : List Insn} {lead : Nat → Bool} {c : Config} {t t' : Translator}
  {st st' : AbsState} {ops : List Op}

/-- None of the operations assigns the pc. -/
abbrev OffPc (ops : List Op) : Prop := AllWrite (· ≠ hPc) ops

theorem OffPc.not_assigns (h : OffPc ops) {op : Op} (hop : op ∈ ops) : ¬op.AssignsPc :=
  not_not.mpr (h op hop)

theorem offPc_of_lt {T : Nat → Prop} (h : AllWrite T ops) (hT : ∀ k, T k → hPc < k) : OffPc ops :=
  h.mono fun k hk => Nat.ne_of_gt (hT k hk)

theorem isScratch_gt {k : Nat} (h : IsScratch k) : hPc < k := by
  have hlo := h.1
  simp only [hPc]
  omega

theorem isResult_gt {k : Nat} (h : IsResult k) : hPc < k := by
  rcases h with rfl | h
  · decide
  · exact isScratch_gt h

theorem regOrScratch_gt {d : Fin 16} {k : Nat} (h : k = hReg d ∨ IsScratch k) : hPc < k := by
  rcases h with rfl | h
  · simp only [hReg, hPc]
    omega
  · exact isScratch_gt h

theorem hReg_gt (r : Nat) : hPc < hReg r := by
  simp only [hReg, hPc]
  omega

/-- An accepted instruction leaves the pc alone. -/
theorem InsnEffect.offPc {idx : Nat} (h : InsnEffect insns c idx st t st' t' ops) (hwf : t.WF) :
    OffPc ops := by
  -- a stack header lies above all others
  have hstack : ∀ {base : RegInfo} {i : Insn} {sh : Nat}, t.Grows t' → StackAccess t' base i sh →
      sh ≠ hPc := fun hg hacc => by
    have hrange := ((hg.wf hwf).range hacc.hdr).1
    simp only [hStackBase, hPc] at *
    omega
  cases h with
  | quiet _ hops _ => exact offPc_of_lt hops fun _ => isScratch_gt
  | alu _ _ hops =>
    obtain ⟨hinto, _⟩ := @aluOps_spec _ _ _ _ _ _ (fun _ => 0) _ 0 0 hops
    exact offPc_of_lt (.of_into hinto) fun _ => regOrScratch_gt
  | konst =>
    simp only [setOp, allWrite_cons, Op.writes_stateless, allWrite_nil, and_true]
    exact Nat.ne_of_gt (hReg_gt _)
  | forget _ _ _ hops => exact offPc_of_lt hops fun _ => regOrScratch_gt
  | reload =>
    simp only [allWrite_cons, Op.writes_cast, allWrite_nil, and_true]
    exact Nat.ne_of_gt (hReg_gt _)
  | spill hg _ hacc => simpa using hstack hg hacc
  | spillImm hg _ hacc => simpa using hstack hg hacc
  | packet _ _ hops => exact offPc_of_lt hops fun _ => isResult_gt

theorem translateBody_offPc {e fuel i : Nat}
    (h : (translateBody insns e fuel i st).Accepts c t st' t' ops) (hwf : t.WF) : OffPc ops := by
  induction fuel generalizing i st t ops with
  | zero =>
    obtain ⟨_, _, rfl⟩ := accepts_pure.mp h
    exact allWrite_nil
  | succ fuel ih =>
    unfold translateBody at h
    split at h
    · obtain ⟨⟨k, st₁⟩, t₁, o₁, hone, o₂, hrest, rfl⟩ := accepts_bind.mp h
      have hg : t.Grows t₁ := Grows.grows hone
      exact allWrite_append.mpr ⟨(translateOne_effect hone).offPc hwf, ih hrest (hg.wf hwf)⟩
    · obtain ⟨_, _, rfl⟩ := accepts_pure.mp h
      exact allWrite_nil

theorem TermLowered.offPc {end_ : Nat} {flow : Flow}
    (h : TermLowered insns lead c end_ st t flow st' t' ops) :
    OffPc ops ∧ ∀ arms, flow.arms = some arms → ∀ a ∈ arms, OffPc a.2.1 := by
  cases h with
  | fall | exit | ja => exact ⟨allWrite_nil, fun _ => nofun⟩
  | @call arms _ _ _ _ _ hcall =>
    have heff := translateCall_effect hcall
    refine ⟨offPc_of_lt heff.writes fun _ => isResult_gt, fun as has a ha => ?_⟩
    cases arms with
    | none => cases has
    | some arms =>
      obtain rfl := Option.some.inj has
      obtain ⟨b, hb, rfl⟩ := List.mem_map.mp ha
      exact offPc_of_lt (heff.arms _ rfl b hb) fun _ => isResult_gt
  | @cond e swap _ _ _ _ hcond =>
    obtain ⟨hscr, _⟩ := (@emitCondition_spec _ _ _ _ _ _ (fun _ => 0)) hcond
    refine ⟨offPc_of_lt (.of_into hscr) fun _ => isScratch_gt, fun as has a ha => ?_⟩
    obtain rfl := Option.some.inj has
    simp only [List.mem_cons, List.not_mem_nil, or_false] at ha
    rcases ha with rfl | rfl <;> exact allWrite_nil

end OffPc

/-! ## The modules of one block -/

section Block

variable {insns : List Insn} {lead : Nat → Bool} {c : Config} {t t' : Translator}
  {st st' : AbsState} {ops : List Op} {start end_ : Nat} {flow : Flow}
  {arms : List (List MatchEntry × List Op × Nat)} {later : List (List Rule)}

theorem pcEntry_eq_iff {p q : Nat} : pcEntry p = pcEntry q ↔ p % 2 ^ 64 = q % 2 ^ 64 := by
  simp only [pcEntry, cmpEntry, matchConst, MatchEntry.mk.injEq, MatchVal.const.injEq, true_and,
    and_true]
  omega

theorem guarded_closeRules {rules : List Rule} {pc : Nat} :
    Guarded (closeRules rules) pc ↔ ∃ r ∈ rules, r.entries.head? = some (pcEntry pc) := by
  simp [Guarded, closeRules, defaultRule]

theorem guarded_single {p q : Nat} :
    Guarded (closeRules [⟨[pcEntry p], ops⟩]) q ↔ p % 2 ^ 64 = q % 2 ^ 64 := by
  simp [guarded_closeRules, pcEntry_eq_iff]

theorem guarded_decide {q : Nat} :
    Guarded (closeRules (decideRules start arms)) q ↔
      arms ≠ [] ∧ decidePc start % 2 ^ 64 = q % 2 ^ 64 := by
  rw [guarded_closeRules]
  constructor
  · rintro ⟨r, hr, hhead⟩
    obtain ⟨a, ha, rfl⟩ := List.mem_map.mp hr
    exact ⟨List.ne_nil_of_mem ha, pcEntry_eq_iff.mp (Option.some.inj hhead)⟩
  · rintro ⟨hne, heq⟩
    obtain ⟨a, ha⟩ := List.exists_mem_of_ne_nil arms hne
    exact ⟨_, List.mem_map_of_mem ha, congrArg some (pcEntry_eq_iff.mpr heq)⟩

/-- The pcs a block can go on at. -/
def Flow.pcs (flow : Flow) : List Nat :=
  match flow.arms with
  | some arms => arms.map (·.2.2)
  | none => [flow.nextPc]

theorem setPcOp_assignsPc (pc : Nat) : (setPcOp pc hPc).AssignsPc := fun h => h rfl

theorem setPcOp_inj {p q : Nat} (h : setPcOp p hPc = setPcOp q hPc) : p = q := by
  simpa [setPcOp] using h

/-- The last operation of a rule is the only one that assigns the pc. -/
theorem assigns_iff {P : Nat → Prop} {pc : Nat} (hops : OffPc ops) :
    (∀ op ∈ ops ++ [setPcOp pc hPc], op.AssignsPc → ∃ q, op = setPcOp q hPc ∧ P q) ↔ P pc := by
  constructor
  · intro h
    obtain ⟨q, hq, hP⟩ := h (setPcOp pc hPc) (by simp) (setPcOp_assignsPc pc)
    rwa [setPcOp_inj hq]
  · intro h op hop hassigns
    rcases List.mem_append.mp hop with hop | hop
    · exact absurd hassigns (hops.not_assigns hop)
    · exact ⟨pc, List.mem_singleton.mp hop, h⟩

theorem closeRules_assigns_iff {rules : List Rule} {P : Nat → Prop} :
    (∀ r ∈ closeRules rules, ∀ op ∈ r.ops, op.AssignsPc → ∃ q, op = setPcOp q hPc ∧ P q) ↔
      ∀ r ∈ rules, ∀ op ∈ r.ops, op.AssignsPc → ∃ q, op = setPcOp q hPc ∧ P q := by
  simp only [closeRules, List.mem_append, List.mem_singleton, defaultRule, or_imp, forall_and,
    forall_eq, List.not_mem_nil, false_imp_iff, implies_true, and_true]

/-- A block sends the run forward when every pc it can go on at does. -/
theorem movesForward_block (hops : OffPc ops)
    (harms : ∀ arms, flow.arms = some arms → arms ≠ [] ∧ ∀ a ∈ arms, OffPc a.2.1) :
    MovesForward (blockModules start flow ops ++ later) ↔
      (∀ pc ∈ flow.pcs, HaltsOrGuards later pc) ∧ MovesForward later := by
  cases hfa : flow.arms with
  | none =>
    rw [blockModules_of_no_arms hfa, List.singleton_append, MovesForward, closeRules_assigns_iff]
    simp only [List.mem_singleton, forall_eq, Flow.pcs, hfa]
    exact and_congr_left fun _ => assigns_iff hops
  | some arms =>
    obtain ⟨hne, hoff⟩ := harms arms hfa
    rw [blockModules_of_arms hfa, List.cons_append, List.singleton_append,
      MovesForward, MovesForward,
      closeRules_assigns_iff, closeRules_assigns_iff]
    simp only [List.mem_singleton, forall_eq, Flow.pcs, hfa, List.mem_map, forall_exists_index,
      and_imp, forall_apply_eq_imp_iff₂]
    -- the first transformer always hands over to the second
    have hfirst : HaltsOrGuards (closeRules (decideRules start arms) :: later) (decidePc start) :=
      .inr ⟨_, List.mem_cons_self, guarded_decide.mpr ⟨hne, rfl⟩⟩
    rw [iff_true_intro ((assigns_iff hops).mpr hfirst), true_and]
    refine and_congr_left fun _ => ?_
    simp only [decideRules, List.mem_map, forall_exists_index, and_imp, forall_apply_eq_imp_iff₂]
    exact forall₂_congr fun a ha => assigns_iff (hoff a ha)

theorem defaults_block {m : List Rule} (h : m ∈ blockModules start flow ops) :
    ∃ rs r, m = rs ++ [r] ∧ r.entries = [] := by
  have hclosed : ∃ rules, m = closeRules rules := by
    cases hfa : flow.arms with
    | none =>
      rw [blockModules_of_no_arms hfa] at h
      exact ⟨_, List.mem_singleton.mp h⟩
    | some arms =>
      rw [blockModules_of_arms hfa] at h
      simp only [List.mem_cons, List.not_mem_nil, or_false] at h
      rcases h with rfl | rfl <;> exact ⟨_, rfl⟩
  obtain ⟨rules, rfl⟩ := hclosed
  exact ⟨rules, defaultRule, rfl, rfl⟩

theorem guards_block {m : List Rule} {pc : Nat} (h : m ∈ blockModules start flow ops)
    (hg : Guarded m pc) :
    blockPc start % 2 ^ 64 = pc % 2 ^ 64 ∨ decidePc start % 2 ^ 64 = pc % 2 ^ 64 := by
  cases hfa : flow.arms with
  | none =>
    rw [blockModules_of_no_arms hfa] at h
    rw [List.mem_singleton.mp h] at hg
    exact .inl (guarded_single.mp hg)
  | some arms =>
    rw [blockModules_of_arms hfa] at h
    simp only [List.mem_cons, List.not_mem_nil, or_false] at h
    rcases h with rfl | rfl
    · exact .inl (guarded_single.mp hg)
    · exact .inr (guarded_decide.mp hg).2

theorem guarded_block : ∃ m ∈ blockModules start flow ops, Guarded m (blockPc start) := by
  cases hfa : flow.arms with
  | none =>
    rw [blockModules_of_no_arms hfa]
    exact ⟨_, List.mem_cons_self, guarded_single.mpr rfl⟩
  | some arms =>
    rw [blockModules_of_arms hfa]
    exact ⟨_, List.mem_cons_self, guarded_single.mpr rfl⟩

/-- The two transformers of a block wait for different pcs. -/
theorem pairwise_block :
    (blockModules start flow ops).Pairwise fun m m' => ∀ pc, Guarded m pc → ¬Guarded m' pc := by
  cases hfa : flow.arms with
  | none =>
    rw [blockModules_of_no_arms hfa]
    exact List.pairwise_singleton _ _
  | some arms =>
    rw [blockModules_of_arms hfa]
    refine List.pairwise_pair.mpr fun pc h h' => ?_
    have hb := guarded_single.mp h
    have hd := (guarded_decide.mp h').2
    simp only [blockPc, decidePc] at *
    omega

/-- Where the terminator of a block can send the run. -/
theorem TermLowered.pcs (h : TermLowered insns lead c end_ st t flow st' t' ops) (hpos : 0 < end_) :
    (∀ pc ∈ flow.pcs, pc = pcHalt ∨ pc = (jumpTo insns lead (end_ : Nat)).2 ∨
      (insnAt insns (end_ - 1)).branches = true ∧
        pc = (jumpTo insns lead (jumpTarget (end_ - 1) (insnAt insns (end_ - 1)))).2) ∧
    ((insnAt insns (end_ - 1)).branches = true →
      (jumpTo insns lead (jumpTarget (end_ - 1) (insnAt insns (end_ - 1)))).2 ∈ flow.pcs) := by
  have htarget : jumpTarget (end_ - 1) (insnAt insns (end_ - 1)) =
      end_ + (insnAt insns (end_ - 1)).off.toInt := by
    rw [jumpTarget]
    omega
  rw [htarget]
  cases h with
  | fall hends =>
    refine ⟨fun pc hpc => .inr (.inl ?_), fun hbr => ?_⟩
    · rw [List.mem_singleton.mp hpc, ← fallTo_eq]
      rfl
    · simp [Insn.branches, hends] at hbr
  | exit hends hop =>
    refine ⟨fun pc hpc => .inl (List.mem_singleton.mp hpc), fun hbr => ?_⟩
    simp [Insn.branches, hop] at hbr
  | @call arms _ _ _ hends hop hcall =>
    refine ⟨fun pc hpc => .inr (.inl ?_), fun hbr => ?_⟩
    · rw [← fallTo_eq]
      cases arms with
      | none => exact List.mem_singleton.mp hpc
      | some arms =>
        simp only [Flow.pcs, Flow.arms, List.map_map, List.mem_map, Function.comp_apply] at hpc
        obtain ⟨_, _, rfl⟩ := hpc
        rfl
    · simp [Insn.branches, hop] at hbr
  | ja hends hop =>
    have hnext : ∀ j : Int, (if (jumpTo insns lead j).1.isSome then (jumpTo insns lead j).2
        else pcHalt) = (jumpTo insns lead j).2 := by
      intro j
      rw [jumpTo]
      split <;> rfl
    refine ⟨fun pc hpc => .inr (.inr ⟨by simp [Insn.branches, hends, hop], ?_⟩), fun _ => ?_⟩
    · rw [List.mem_singleton.mp hpc]
      exact hnext _
    · exact List.mem_singleton.mpr (hnext _).symm
  | @cond e swap _ _ hbr hop hcond =>
    constructor
    · intro pc hpc
      rw [← fallTo_eq]
      cases swap <;> simp only [Flow.pcs, Flow.arms, List.map_cons, List.map_nil, List.mem_cons,
        List.not_mem_nil, or_false, Bool.false_eq_true, if_false, if_true] at hpc
      · rcases hpc with rfl | rfl
        · exact .inr (.inr ⟨hbr, rfl⟩)
        · exact .inr (.inl rfl)
      · rcases hpc with rfl | rfl
        · exact .inr (.inl rfl)
        · exact .inr (.inr ⟨hbr, rfl⟩)
    · intro _
      cases swap <;> simp [Flow.pcs, Flow.arms]

/-- A branch decides between at least two ways. -/
theorem TermLowered.arms_ne_nil (h : TermLowered insns lead c end_ st t flow st' t' ops)
    (harms : flow.arms = some arms) : arms ≠ [] := by
  cases h with
  | fall | exit | ja => cases harms
  | @call as _ _ _ _ _ hcall =>
    cases as with
    | none => cases harms
    | some as =>
      obtain rfl := Option.some.inj harms
      obtain ⟨pre, o, rfl⟩ := translateCall_default hcall
      simp
  | cond =>
    obtain rfl := Option.some.inj harms
    simp

end Block

/-! ## The modules of all blocks -/

section Blocks

variable {insns : List Insn} {lead : Nat → Bool} {c : Config} {t t' : Translator} {ops : List Op}
  {blockIn : Nat → AbsState} {mods : List (List Rule)} {m b start end_ : Nat}

/-- The jump at the end of a block leaves the program or goes to a later leader. -/
def EndsForward (insns : List Insn) (lead : Nat → Bool) (end_ : Nat) : Prop :=
  (insnAt insns (end_ - 1)).branches = true → ∀ k : Nat,
    jumpTarget (end_ - 1) (insnAt insns (end_ - 1)) = k → k < insns.length →
      end_ ≤ k ∧ lead k = true

/-- The modules of the blocks from `b` on: which pcs they wait for, and when they only go
forward. -/
structure BlocksForm (insns : List Insn) (lead : Nat → Bool) (b : Nat) (mods : List (List Rule)) :
    Prop where
  default : ∀ m ∈ mods, ∃ rs r, m = rs ++ [r] ∧ r.entries = []
  guards : mods.Pairwise fun m m' => ∀ pc, Guarded m pc → ¬Guarded m' pc
  guarded : ∀ m ∈ mods, ∀ pc, Guarded m pc → ∃ s, lead s = true ∧ s < insns.length ∧
    b ≤ blockOf lead s ∧ (blockPc s % 2 ^ 64 = pc % 2 ^ 64 ∨ decidePc s % 2 ^ 64 = pc % 2 ^ 64)
  reached : ∀ s, lead s = true → s < insns.length → b ≤ blockOf lead s →
    ∃ m ∈ mods, Guarded m (blockPc s)
  forward : MovesForward mods ↔
    ∀ b' start end_, b ≤ b' → IsBlock insns lead b' start end_ → EndsForward insns lead end_

/-- The later leaders are those of the later blocks. -/
theorem IsBlock.le_iff (hb : IsBlock insns lead b start end_) {s : Nat} (hs : lead s = true)
    (hlt : s < insns.length) : b + 1 ≤ blockOf lead s ↔ end_ ≤ s := by
  have hss := starts_blockOf hs hlt
  have hiff := starts_lt hb.start_eq hss
  have hstart := hb.start_lt
  constructor
  · intro h
    have hlt' := hiff.mp h
    by_contra hlt
    have hinner := hb.inner s hlt' (by omega)
    rw [hs] at hinner
    cases hinner
  · intro h
    exact hiff.mpr (by omega)

theorem jumpTo_reaches {later : List (List Rule)} (hlen : decidePc insns.length < 2 ^ 64)
    (hb : IsBlock insns lead b start end_) (hform : BlocksForm insns lead (b + 1) later) (j : Int) :
    HaltsOrGuards later (jumpTo insns lead j).2 ↔
      ∀ k : Nat, j = k → k < insns.length → end_ ≤ k ∧ lead k = true := by
  rw [jumpTo]
  split
  · rename_i hin
    obtain ⟨k, rfl⟩ := Int.eq_ofNat_of_zero_le hin.1
    have hk : k < insns.length := by omega
    simp only [Int.toNat_natCast]
    constructor
    · rintro (hhalt | ⟨m, hm, hguard⟩) k' hk' -
      · exact absurd hhalt (blockPc_ne_halt k)
      · obtain rfl : k = k' := by omega
        obtain ⟨s, hs, hslt, hbs, hpc⟩ := hform.guarded m hm _ hguard
        have hsk : s = k := by
          simp only [blockPc, decidePc] at *
          omega
        rw [← hsk]
        exact ⟨(hb.le_iff hs hslt).mp hbs, hs⟩
    · intro h
      obtain ⟨hle, hlead⟩ := h k rfl hk
      exact .inr (hform.reached k hlead hk ((hb.le_iff hlead hk).mpr hle))
  · rename_i hout
    refine iff_of_true (.inl rfl) fun k hk hlt => ?_
    omega

/-- One more block in front. -/
theorem BlocksForm.cons {rest : List (List Rule)} {st st' : AbsState} {flow : Flow}
    {t₁ t₂ : Translator} {o o' : List Op} (hlen : decidePc insns.length < 2 ^ 64)
    (hb : IsBlock insns lead b start end_) (hoff : OffPc o)
    (hterm : TermLowered insns lead c end_ st t₁ flow st' t₂ o')
    (hrest : BlocksForm insns lead (b + 1) rest) :
    BlocksForm insns lead b (blockModules start flow o ++ rest) := by
  have hstart := hb.start_lt
  have hend := hb.end_le
  have hlead := leader_of_starts hb.start_eq
  constructor
  · intro m hm
    rcases List.mem_append.mp hm with hm | hm
    · exact defaults_block hm
    · exact hrest.default m hm
  · refine List.pairwise_append.mpr ⟨pairwise_block, hrest.guards, fun m hm m' hm' pc hg hg' => ?_⟩
    obtain ⟨s, hs, hslt, hbs, hpc⟩ := hrest.guarded m' hm' pc hg'
    have hpc' := guards_block hm hg
    have hle := (hb.le_iff hs hslt).mp hbs
    simp only [blockPc, decidePc] at *
    omega
  · intro m hm pc hg
    rcases List.mem_append.mp hm with hm | hm
    · exact ⟨start, hlead.1, hlead.2, by rw [blockOf_starts hb.start_eq], guards_block hm hg⟩
    · obtain ⟨s, hs, hslt, hbs, hpc⟩ := hrest.guarded m hm pc hg
      exact ⟨s, hs, hslt, by omega, hpc⟩
  · intro s hs hslt hbs
    rcases Nat.eq_or_lt_of_le hbs with heq | hlt
    · have hss := starts_blockOf hs hslt
      rw [← heq, hb.start_eq] at hss
      obtain rfl := Option.some.inj hss
      obtain ⟨m, hm, hg⟩ := guarded_block
      exact ⟨m, List.mem_append_left _ hm, hg⟩
    · obtain ⟨m, hm, hg⟩ := hrest.reached s hs hslt hlt
      exact ⟨m, List.mem_append_right _ hm, hg⟩
  · have harms : ∀ arms, flow.arms = some arms → arms ≠ [] ∧ ∀ a ∈ arms, OffPc a.2.1 :=
      fun arms h => ⟨hterm.arms_ne_nil h, hterm.offPc.2 arms h⟩
    obtain ⟨hpcs, htaken⟩ := hterm.pcs (by omega)
    have hreach := jumpTo_reaches hlen hb hrest
    have hfall : HaltsOrGuards rest (jumpTo insns lead (end_ : Nat)).2 :=
      (hreach _).mpr fun k hk hlt => by
        obtain rfl : end_ = k := by omega
        exact ⟨Nat.le_refl _, (hb.end_lead hlt).1⟩
    have hblock : (∀ pc ∈ flow.pcs, HaltsOrGuards rest pc) ↔ EndsForward insns lead end_ := by
      constructor
      · intro h hbr
        exact (hreach _).mp (h _ (htaken hbr))
      · intro h pc hpc
        rcases hpcs pc hpc with rfl | rfl | ⟨hbr, rfl⟩
        · exact .inl rfl
        · exact hfall
        · exact (hreach _).mpr (h hbr)
    rw [movesForward_block hoff harms, hblock, hrest.forward]
    constructor
    · rintro ⟨hfirst, hlater⟩ b' start' end' hbb hb'
      rcases Nat.eq_or_lt_of_le hbb with rfl | hlt
      · have heq : end_ = end' := hb.end_eq.symm.trans hb'.end_eq
        rwa [← heq]
      · exact hlater b' start' end' hlt hb'
    · intro h
      exact ⟨h b start end_ (Nat.le_refl _) hb, fun b' start' end' hbb hb' =>
        h b' start' end' (by omega) hb'⟩

theorem BlocksForm.nil (hb : b = (blockStarts insns.length lead).length) :
    BlocksForm insns lead b [] := by
  refine ⟨by simp, .nil, by simp, fun s hs hslt hbs => ?_, iff_of_true trivial ?_⟩
  · have hss := starts_blockOf hs hslt
    have := (List.getElem?_eq_some_iff.mp hss).1
    omega
  · intro b' start end_ hbb hb'
    have := (List.getElem?_eq_some_iff.mp hb'.start_eq).1
    omega

theorem blocksForm (hlen : decidePc insns.length < 2 ^ 64)
    (hm : b + m = (blockStarts insns.length lead).length)
    (h : (translateBlocks insns lead (List.range' b m) blockIn).Accepts c t mods t' ops)
    (hwf : t.WF) : BlocksForm insns lead b mods := by
  induction m generalizing b blockIn t mods ops with
  | zero =>
    obtain ⟨rfl, _, _⟩ := accepts_pure.mp h
    exact .nil (by omega)
  | succ m ih =>
    rw [List.range'_succ] at h
    unfold translateBlocks at h
    obtain ⟨⟨bmods, blockIn'⟩, t₁, o₁, hblock, _, h₁, rfl⟩ := accepts_bind.mp h
    obtain ⟨rest, t₂, o₂, hrest, _, h₂, rfl⟩ := accepts_bind.mp h₁
    obtain ⟨rfl, rfl, rfl⟩ := accepts_pure.mp h₂
    obtain ⟨start, end_, hb⟩ := @isBlock insns lead b (by omega)
    have hg : t.Grows t₁ := Grows.grows hblock
    obtain ⟨_, st', flow, o, hlow, rfl, rfl⟩ := translateBlock_accepts hb hblock
    obtain ⟨st₁, t₃, ob, ot, hbody, hterm, rfl⟩ := hlow.lowered
    have hterm' := translateTerm_accepts hterm
    have hoff : OffPc (ob ++ ot) :=
      allWrite_append.mpr ⟨translateBody_offPc hbody hwf, hterm'.offPc.1⟩
    exact (ih (by omega) hrest (hg.wf hwf)).cons hlen hb hoff hterm'

end Blocks

/-! ## The condition -/

section Condition

variable {insns : List Insn} {lead : Nat → Bool}

/-- The scan for leaders has seen to the jumps it looked at, so only those in second slots
are left. -/
theorem endsForward_iff (hl : Leaders insns lead) :
    (∀ b start end_, IsBlock insns lead b start end_ → EndsForward insns lead end_) ↔
      WideJumpsForward insns := by
  have h0 : lead 0 = true := (hl.iff 0).mpr (.inl rfl)
  constructor
  · intro h i hi hwide hlt hend hbr k hk hkn
    obtain ⟨b, start, end_, hb, hstart, hin⟩ := exists_block h0 hlt
    have hend_le := hb.end_le
    have heq : end_ = i + 2 := by
      by_contra hne
      rcases hend with hn | hlead
      · omega
      · have hinner := hb.inner (i + 2) (by omega) (by omega)
        rw [(hl.isLeader_iff _).mpr hlead] at hinner
        cases hinner
    rw [← hl.isLeader_iff, ← heq]
    refine h b start end_ hb ?_ k ?_ hkn
    · rw [heq]
      exact hbr
    · rw [heq]
      exact hk
  · intro h b start end_ hb hbr k hk hkn
    have hstart := hb.start_lt
    have hend_le := hb.end_le
    have hpos : end_ - 1 + 1 = end_ := by omega
    rcases @boundary_or_second insns (end_ - 1) (by omega) with hbd | ⟨i, hi, hwide, heq⟩
    · have hfwd := (hl.forward _ hbd (by omega) hbr).1
      refine ⟨?_, (hl.iff k).mpr (.inr ⟨_, hbd, by omega, .inr ⟨hbr, hk.symm⟩⟩)⟩
      rw [hk] at hfwd
      omega
    · have hi2 : i + 2 = end_ := by omega
      have hleader : i + 2 = insns.length ∨ IsLeader insns (i + 2) := by
        rcases Nat.eq_or_lt_of_le hend_le with hn | hn
        · exact .inl (by omega)
        · rw [hi2]
          exact .inr ((hl.isLeader_iff _).mp (hb.end_lead hn).1)
      rw [heq] at hbr hk
      obtain ⟨hle, hlead⟩ := h i hi hwide (by omega) hleader hbr k hk hkn
      exact ⟨by omega, (hl.isLeader_iff k).mpr hlead⟩

end Condition

/-! ## The whole chain -/

section Program

variable {insns : List Insn} {c : Config} {t' : Translator}
    {mods : List (List Rule)} {ops : List Op}

theorem preamble_not_guarded (used : Nat → Bool) (pc : Nat) : ¬Guarded (preamble used) pc := by
  rintro ⟨r, hr, hhead⟩
  rw [List.mem_singleton.mp hr] at hhead
  cases hhead

/-- The preamble hands over to the first block. -/
theorem preamble_movesForward {used : Nat → Bool} {later : List (List Rule)}
    (hfirst : HaltsOrGuards later (blockPc 0)) :
    MovesForward (preamble used :: later) ↔ MovesForward later := by
  refine and_iff_right ?_
  intro r hr
  rw [List.mem_singleton.mp hr]
  refine (assigns_iff ?_).mpr hfirst
  intro op hop
  obtain ⟨r, _, rfl⟩ := List.mem_map.mp hop
  simp only [setOp, Op.writes_stateless]
  exact hReg_ne_hPc r

/-- The emitted chain is well formed exactly when the jumps that no scan looks at go forward.
The bound is one that every list meets that fits in memory. -/
theorem chain_wellFormed_iff (hne : insns ≠ []) (hlen : decidePc insns.length < 2 ^ 64)
    (h : (translateProgram insns).Accepts c .init mods t' ops) :
    (emitProgram c mods).WellFormed ↔ WideJumpsForward insns := by
  unfold translateProgram at h
  obtain ⟨lead, t₀, o₀, hfind, _, h₁, rfl⟩ := accepts_bind.mp h
  obtain ⟨rest, t₁, o₁, hblocks, _, h₂, rfl⟩ := accepts_bind.mp h₁
  obtain ⟨rfl, rfl, rfl⟩ := accepts_pure.mp h₂
  obtain ⟨rfl, rfl, hleaders⟩ := findLeaders_accepts hfind
  rw [List.range_eq_range'] at hblocks
  have hform := blocksForm hlen (by omega) hblocks Translator.init_wf
  have hrules : (emitProgram c (preamble (scanUsedRegs insns) :: rest)).modules.map (·.rules) =
      preamble (scanUsedRegs insns) :: rest := numberModules_rules _
  have hn : 0 < insns.length := List.length_pos_iff.mpr hne
  have hlead0 : lead 0 = true := (hleaders.iff 0).mpr (.inl rfl)
  have hfirst : HaltsOrGuards rest (blockPc 0) := .inr (hform.reached 0 hlead0 hn (Nat.zero_le _))
  have hforward : MovesForward ((emitProgram c (preamble (scanUsedRegs insns) :: rest)).modules.map
      (·.rules)) ↔ WideJumpsForward insns := by
    rw [hrules, preamble_movesForward hfirst, hform.forward, ← endsForward_iff hleaders]
    simp only [Nat.zero_le, true_imp_iff]
  refine ⟨fun hwf => hforward.mp hwf.forward, fun hcond => ?_⟩
  refine ⟨emitProgram_ids, emitProgram_path (by simp), ?_, ?_, hforward.mpr hcond, emitProgram_once⟩
  · intro m hm
    have hmem : m.rules ∈ preamble (scanUsedRegs insns) :: rest := hrules ▸ List.mem_map_of_mem hm
    rcases List.mem_cons.mp hmem with heq | hmem
    · exact ⟨[], _, heq, rfl⟩
    · exact hform.default _ hmem
  · have hpair : (preamble (scanUsedRegs insns) :: rest).Pairwise
        fun m m' => ∀ pc, Guarded m pc → ¬Guarded m' pc :=
      List.pairwise_cons.mpr
        ⟨fun m _ pc hg => absurd hg (preamble_not_guarded _ pc), hform.guards⟩
    rw [← hrules, List.pairwise_map] at hpair
    exact hpair

/-- A wide immediate, a conditional jump over one instruction, and an exit. -/
def wideSkipProgram : List Insn :=
  [⟨0x18, 0, 0, 0, 7⟩, ⟨0, 0, 0, 0, 0⟩, ⟨0x15, 0, 0, 1, 7⟩, ⟨0xb7, 0, 0, 0, 1⟩, ⟨0x95, 0, 0, 0, 0⟩]

theorem wideSkipProgram_wellFormed : ∃ mods,
    (translateProgram wideSkipProgram).result xdpConfig .init = some mods ∧
      (emitProgram xdpConfig mods).WellFormed := by
  have hsome : ((translateProgram wideSkipProgram).result xdpConfig
    .init).isSome := by decide +kernel
  obtain ⟨mods, hmods⟩ := Option.isSome_iff_exists.mp hsome
  obtain ⟨t', ops, hacc⟩ := accepts_of_result hmods
  refine ⟨mods, hmods, (chain_wellFormed_iff (by decide) (by decide) hacc).mpr ?_⟩
  intro i hi hwide hlt _ hbr
  have hi5 : i = 0 ∨ i = 1 ∨ i = 2 ∨ i = 3 := by
    simp only [wideSkipProgram, List.length_cons, List.length_nil] at hlt
    omega
  rcases hi5 with rfl | rfl | rfl | rfl
  · cases hbr
  all_goals cases hwide

/-- A wide immediate whose second slot is a jump back to the first. -/
def wideLoop : List Insn := [⟨0x18, 0, 0, 0, 7⟩, ⟨0x05, 0, 0, 0xfffe, 0⟩]

/-- The translation reports nothing, and the only block sends the run to itself. -/
theorem wideLoop_counterexample : ∃ mods,
    (translateProgram wideLoop).result xdpConfig .init = some mods ∧
      ¬(emitProgram xdpConfig mods).WellFormed := by
  refine ⟨[preamble (scanUsedRegs wideLoop), closeRules [⟨[pcEntry (blockPc 0)],
    [setOp (hReg 0) 7, setPcOp (blockPc 0) hPc]⟩]], by decide +kernel, fun hwf => ?_⟩
  have hforward := hwf.forward
  rw [show (emitProgram xdpConfig _).modules.map (·.rules) = _ from
    numberModules_rules _] at hforward
  obtain ⟨pc, hpc, hreach⟩ := hforward.2.1 _ List.mem_cons_self (setPcOp (blockPc 0) hPc) (by simp)
    (setPcOp_assignsPc _)
  obtain rfl := setPcOp_inj hpc
  rcases hreach with hhalt | ⟨m, hm, _⟩
  · cases hhalt
  · cases hm

end Program

end Ect
