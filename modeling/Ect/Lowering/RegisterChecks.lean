-- SUMMARY: Which register numbers an instruction's translation checks, and which it indexes the register file with.
import Ect.Lowering.Visits

/-!
# Register numbers out of range

A register nibble ranges over 0 to 15 and there are 11 registers. `translate_alu` refuses
a number out of range; a load, a store and a wide immediate index the abstract state with
it, and a conditional jump, a packet load and the value of a store name a header with it.
The translation of a block raises exactly where one of its visits indexes the state with a
number that is out of range.
-/

namespace Ect

open TransM

/-! ## What an instruction asks for -/

/-- The registers the abstract state is asked for unchecked. -/
def Insn.indexed (i : Insn) : List Nat :=
  if i.isLdImm64 then [i.dst]
  else
    match i.cls with
    | .ldx => [i.dst, i.src]
    | .stx => if i.mode = .atomic then [] else [i.dst]
    | .st => [i.dst]
    | _ => []

/-- The instruction stores a register to a slot of the frame. -/
def Insn.fillsSlot (i : Insn) (st : AbsState) : Bool :=
  let base := st.reg i.dst
  !i.isLdImm64 && i.cls == .stx && i.mode != .atomic && base.tag == .stack && base.offKnown &&
    decide (0 ≤ slotOf base i ∧ slotOf base i ≤ bpfStackSize)

/-- The registers the state `st` is asked for unchecked: the source of a store is one where it
is stored to a slot of the frame. -/
def Insn.indexedIn (i : Insn) (st : AbsState) : List Nat :=
  i.indexed ++ if i.fillsSlot st then [(i.src : Nat)] else []

/-- A block that starts at `s` and ends before `e`. -/
structure BlockSpan (insns : List Insn) (s e : Nat) : Prop where
  leader : IsLeader insns s
  start_lt : s < e
  end_le : e ≤ insns.length
  end_leader : e < insns.length → IsLeader insns e
  inner : ∀ k, s < k → k < e → ¬IsLeader insns k

/-- A straight-line walk from `i` that stops before `e` takes the instruction at `k`. -/
inductive WalkTo (insns : List Insn) (e : Nat) : Nat → Nat → Prop where
  | here {i : Nat} (hi : i < e) : WalkTo insns e i i
  | next {i k : Nat} (hi : i < e) (h : WalkTo insns e (i + insnSlots (insnAt insns i)) k) :
      WalkTo insns e i k

/-- The instruction is translated as part of the straight line of its block. -/
def Walked (insns : List Insn) (k : Nat) : Prop :=
  ∃ s e, BlockSpan insns s e ∧ WalkTo insns (bodyEnd insns e) s k

/-- The instruction is translated as the end of its block. -/
def EndsAt (insns : List Insn) (k : Nat) : Prop :=
  (insnAt insns k).endsBlock = true ∧ ∃ s, BlockSpan insns s (k + 1)

/-- A wide immediate without its second slot. -/
def Truncated (insns : List Insn) (k : Nat) : Prop :=
  (insnAt insns k).isLdImm64 = true ∧ insns.length ≤ k + 1

/-- The instruction of a visit indexes the register file with existing registers only. -/
def Visit.InRange (insns : List Insn) (v : Visit) : Prop :=
  Truncated insns v.idx ∨ ∀ r ∈ (insnAt insns v.idx).indexedIn v.st, r < numBpfRegs

/-! ## Methods that raise nothing, and methods that always raise -/

section Raising

variable {α β : Type}

/-- The law that a method raises nothing. -/
def total : Law where
  Holds m := ∀ c t, ∃ r, m c t = .ok r
  pure _ := fun _ _ => ⟨_, rfl⟩
  bind hx hf := by
    intro c t
    obtain ⟨⟨a, t₁, o₁⟩, h₁⟩ := hx c t
    obtain ⟨⟨b, t₂, o₂⟩, h₂⟩ := hf a c t₁
    exact ⟨(b, t₂, o₁.append o₂), by simp only [Bind.bind, TransM.bind, h₁, h₂]⟩
  capture hx := by
    intro c t
    obtain ⟨⟨a, t₁, o⟩, h⟩ := hx c t
    exact ⟨_, by simp only [capture, h]; rfl⟩
  config := fun _ _ => ⟨_, rfl⟩
  get := fun _ _ => ⟨_, rfl⟩
  emit _ := fun _ _ => ⟨_, rfl⟩
  unsupported _ _ := fun _ _ => ⟨_, rfl⟩
  freshTmp _ := by
    intro c t
    by_cases h : t.tmpNext ≥ numTmps
    · exact ⟨_, by simp only [freshTmp, Bind.bind, TransM.bind, TransM.get, if_pos h]; rfl⟩
    · exact ⟨_, by simp only [freshTmp, Bind.bind, TransM.bind, TransM.get, if_neg h]; rfl⟩
  setTmpNext _ := fun _ _ => ⟨_, rfl⟩
  stackHeader slot := by
    intro c t
    by_cases h : slot < 0 ∨ slot > bpfStackSize
    · exact ⟨_, by simp only [stackHeader, Bind.bind, TransM.bind, TransM.get, if_pos h]; rfl⟩
    · cases hk : t.stackHdrOf slot.toNat with
      | some _ =>
        exact ⟨_, by simp only [stackHeader, Bind.bind, TransM.bind, TransM.get, if_neg h, hk]; rfl⟩
      | none =>
        exact ⟨_, by simp only [stackHeader, Bind.bind, TransM.bind, TransM.get, if_neg h, hk]; rfl⟩

instance : total.AllowsCount where
  countMapSite _ := fun _ _ => ⟨_, rfl⟩

theorem readReg_total {st : AbsState} {r : Nat} (h : r < numBpfRegs) :
    Obeys total (readReg st r) := by
  unfold readReg
  rw [if_pos h]
  infer_instance

theorem writeReg_total {st : AbsState} {r : Nat} {v : RegInfo} (h : r < numBpfRegs) :
    Obeys total (writeReg st r v) := by
  unfold writeReg
  rw [if_pos h]
  infer_instance

theorem total_given {x : TransM α} {f : α → TransM β} {P : α → Prop} (hx : Obeys total x)
    (hP : x.Gives P) (hf : ∀ a, P a → Obeys total (f a)) : Obeys total (x >>= f) := by
  refine ⟨fun c t => ?_⟩
  obtain ⟨⟨a, t₁, o₁⟩, h₁⟩ := hx.holds c t
  obtain ⟨⟨b, t₂, o₂⟩, h₂⟩ := (hf a (hP _ _ _ _ _ h₁)).holds c t₁
  exact ⟨(b, t₂, o₁.append o₂), by simp only [Bind.bind, TransM.bind, h₁, h₂]⟩

theorem bind_ok {c : Config} {t : Translator} {x : TransM α} {f : α → TransM β}
    (hx : ∃ r, x c t = .ok r) (hf : ∀ a, Obeys total (f a)) : ∃ r, (x >>= f) c t = .ok r := by
  obtain ⟨⟨a, t₁, o₁⟩, hx⟩ := hx
  obtain ⟨⟨b, t₂, o₂⟩, hrest⟩ := (hf a).holds c t₁
  exact ⟨(b, t₂, o₁.append o₂), by simp only [Bind.bind, TransM.bind, hx, hrest]⟩

theorem capture_ok {c : Config} {t : Translator} {x : TransM α} (hx : ∃ r, x c t = .ok r) :
    ∃ r, TransM.capture x c t = .ok r := by
  obtain ⟨⟨a, t₁, o₁⟩, hx⟩ := hx
  exact ⟨_, by simp only [TransM.capture, hx]; rfl⟩

/-- The method raises, from any state. -/
def TransM.Fails (m : TransM α) : Prop := ∀ c t, ∃ e, m c t = .error e

theorem TransM.Fails.bind {x : TransM α} (hx : x.Fails) (f : α → TransM β) : (x >>= f).Fails := by
  intro c t
  obtain ⟨e, h⟩ := hx c t
  exact ⟨e, by simp only [Bind.bind, TransM.bind, h]⟩

theorem TransM.Fails.given {x : TransM α} {f : α → TransM β} {P : α → Prop} (hx : x.Gives P)
    (hf : ∀ a, P a → (f a).Fails) : (x >>= f).Fails := by
  intro c t
  rcases hrun : x c t with e | ⟨a, t₁, o₁⟩
  · exact ⟨e, by simp only [Bind.bind, TransM.bind, hrun]⟩
  · obtain ⟨e, h⟩ := hf a (hx _ _ _ _ _ hrun) c t₁
    exact ⟨e, by simp only [Bind.bind, TransM.bind, hrun, h]⟩

/-- What comes before a method that raises may raise itself, or return anything. -/
theorem TransM.Fails.after {f : α → TransM β} (x : TransM α) (hf : ∀ a, (f a).Fails) :
    (x >>= f).Fails :=
  .given (P := fun _ => True) (fun _ _ _ _ _ _ => trivial) fun a _ => hf a

theorem TransM.Fails.ite {p : Prop} [Decidable p] {x y : TransM α} (hx : x.Fails) (hy : y.Fails) :
    (if p then x else y).Fails := by
  split <;> assumption

end Raising

/-! ## One instruction -/

section Insn

variable {idx : Nat} {i : Insn} {st : AbsState} {insns : List Insn}

theorem translateLdx_total (hsrc : (i.src : Nat) < numBpfRegs) (hdst : (i.dst : Nat) < numBpfRegs) :
    Obeys total (translateLdx idx i st) := by
  have hread : Obeys total (readReg st i.src) := readReg_total hsrc
  have hwrite : ∀ v, Obeys total (writeReg st i.dst v) := fun v => writeReg_total hdst
  unfold translateLdx translateLdxStack translateLdxRegion
  infer_instance

/-- A header other than 0 is that of a slot of the frame. -/
theorem stackHeader_inFrame {slot : Int} :
    (stackHeader slot).Gives fun sh => sh ≠ 0 → 0 ≤ slot ∧ slot ≤ bpfStackSize := by
  intro c t sh t' o h
  unfold stackHeader at h
  obtain ⟨_, _, _, _, _, hrest, _⟩ := ok_bind h
  split at hrest
  · cases hrest
    exact fun hne => absurd rfl hne
  · exact fun _ => by omega

theorem translateStore_total {fromReg : Bool} (hdst : (i.dst : Nat) < numBpfRegs)
    (hsrc : fromReg = true → (st.reg i.dst).tag = .stack → (st.reg i.dst).offKnown = true →
      0 ≤ slotOf (st.reg i.dst) i → slotOf (st.reg i.dst) i ≤ bpfStackSize →
      (i.src : Nat) < numBpfRegs) :
    Obeys total (translateStore idx i st fromReg) := by
  unfold translateStore
  rw [show readReg st i.dst = pure (st.reg i.dst) from if_pos hdst]
  refine total_given (P := (· = st.reg i.dst)) inferInstance (gives_pure rfl) fun base hbase => ?_
  subst hbase
  split
  · rename_i htag
    unfold translateStoreStack
    split
    · infer_instance
    · rename_i hoff
      refine total_given inferInstance stackHeader_inFrame fun sh hsh => ?_
      split
      · infer_instance
      · rename_i hne
        split
        · rename_i hfrom
          obtain ⟨hlo, hhi⟩ := hsh hne
          have hread : Obeys total (readReg st i.src) :=
            readReg_total (hsrc hfrom htag (by simpa using hoff) hlo hhi)
          infer_instance
        · infer_instance
  · unfold translateStoreRegion
    infer_instance

theorem translateLdImm64_total
    (h : insns.length ≤ idx + 1 ∨ ((insnAt insns idx).dst : Nat) < numBpfRegs) :
    Obeys total (translateLdImm64 idx insns st) := by
  unfold translateLdImm64
  dsimp only
  split
  · infer_instance
  · rename_i hfull
    have hwrite : ∀ v, Obeys total (writeReg st (insnAt insns idx).dst v) :=
      fun v => writeReg_total (h.resolve_left (by omega))
    refine .bind inferInstance fun c => ?_
    split <;> infer_instance

theorem translateOne_total
    (h : Truncated insns idx ∨ ∀ r ∈ (insnAt insns idx).indexedIn st, r < numBpfRegs) :
    Obeys total (translateOne idx insns st) := by
  unfold translateOne
  refine .bind inferInstance fun _ => .ite inferInstance ?_
  split
  · rename_i hwide
    refine translateLdImm64_total ?_
    rcases h with ht | h
    · exact .inl ht.2
    · exact .inr (h _ (by simp [Insn.indexedIn, Insn.indexed, hwide]))
  · rename_i hwide
    have h := h.resolve_left fun ht => hwide ht.1
    refine .bind ?_ fun _ => inferInstance
    unfold translatePlain
    cases hcls : (insnAt insns idx).cls with
    | alu64 => infer_instance
    | alu => infer_instance
    | ldx =>
      exact translateLdx_total (h _ (by simp [Insn.indexedIn, Insn.indexed, hwide, hcls]))
        (h _ (by simp [Insn.indexedIn, Insn.indexed, hwide, hcls]))
    | stx =>
      dsimp only
      split
      · infer_instance
      · rename_i hmode
        refine translateStore_total
          (h _ (by simp [Insn.indexedIn, Insn.indexed, hwide, hcls, hmode]))
            fun _ htag hoff hlo hhi => h _ ?_
        simp [Insn.indexedIn, Insn.fillsSlot, hwide, hcls, hmode, htag, hoff, hlo, hhi]
    | st =>
      exact translateStore_total (h _ (by simp [Insn.indexedIn, Insn.indexed, hwide, hcls]))
        (by simp)
    | ld => infer_instance
    | jmp => infer_instance
    | jmp32 => infer_instance

/-- A walk takes the slots of the instruction, unless it runs off the end of the program. -/
theorem translateOne_slots :
    (translateOne idx insns st).Gives fun p =>
      p.1 = insnSlots (insnAt insns idx) ∨ p.1 = 1 ∧ insns.length ≤ idx + 1 := by
  unfold translateOne
  refine .after _ fun _ => ?_
  split
  · rename_i hnop
    have hj : (insnAt insns idx).isJmp = true := by
      simp only [Insn.isNopJump, Bool.and_eq_true] at hnop
      exact hnop.1.1
    exact gives_pure (.inl (insnSlots_of_not_ldImm64 (Insn.isLdImm64_eq_false_of_isJmp hj)).symm)
  · split
    · rename_i hwide
      unfold translateLdImm64
      dsimp only
      split
      · rename_i hend
        exact .after _ fun _ => gives_pure (.inr ⟨rfl, hend⟩)
      · refine .after _ fun c => ?_
        split
        · exact .after _ fun _ => .after _ fun _ => gives_pure
            (.inl (insnSlots_of_ldImm64 hwide).symm)
        · exact .ite (.after _ fun _ => .after _ fun _ => .after _ fun _ =>
            gives_pure (.inl (insnSlots_of_ldImm64 hwide).symm))
              (.after _ fun _ => .after _ fun _ =>
              gives_pure (.inl (insnSlots_of_ldImm64 hwide).symm))
    · rename_i hwide
      exact .after _ fun _ => gives_pure (.inl
        (insnSlots_of_not_ldImm64 (by simpa using hwide)).symm)

/-- A condition on an operation without a comparison is not accepted. -/
theorem emitCondition_other {c : Config} {t t' : Translator} {r : Option MatchEntry × Bool}
    {ops : List Op} (hop : i.jmpOp = .other) : ¬(emitCondition idx i).Accepts c t r t' ops := by
  intro h
  unfold emitCondition at h
  obtain ⟨_, _, _, h⟩ := h.tail
  rw [if_neg (by simp [hop])] at h
  obtain ⟨⟨_, _⟩, _, _, h⟩ := h.tail
  simp [hop, JmpOp.table] at h

end Insn

/-! ## The straight line of a block -/

section Body

variable {insns : List Insn} {e : Nat}

theorem WalkTo.lt {i k : Nat} (h : WalkTo insns e i k) : i ≤ k ∧ k < e := by
  induction h with
  | here hi => exact ⟨le_refl _, hi⟩
  | next hi _ ih => exact ⟨by omega, ih.2⟩

/-- The visits of a straight line are those of its walk. -/
theorem bodyVisits_walkTo (he : e ≤ insns.length) {c : Config} {fuel : Nat} {v w : Visit}
    (hw : w ∈ bodyVisits insns c e fuel v) : WalkTo insns e v.idx w.idx := by
  induction fuel generalizing v with
  | zero => simp [bodyVisits] at hw
  | succ fuel ih =>
    unfold bodyVisits at hw
    split at hw
    · rename_i hlt
      rcases List.mem_cons.mp hw with rfl | hw
      · exact .here hlt
      · split at hw
        · rename_i k st t o hone
          have hwalk := ih (v := ⟨_, _, _⟩) hw
          rcases translateOne_slots _ _ _ _ _ hone with hk | ⟨rfl, hend⟩
          · obtain rfl : k = insnSlots (insnAt insns v.idx) := hk
            exact .next hlt hwalk
          · have := hwalk.lt
            dsimp only at this
            omega
        · cases hw
    · cases hw

/-- A straight line whose visits are in range raises nothing. -/
theorem translateBody_ok {c : Config} {fuel : Nat} {v : Visit}
    (h : ∀ w ∈ bodyVisits insns c e fuel v, w.InRange insns) :
    ∃ r, translateBody insns e fuel v.idx v.st c v.t = .ok r := by
  induction fuel generalizing v with
  | zero => exact ⟨_, rfl⟩
  | succ fuel ih =>
    unfold bodyVisits at h
    unfold translateBody
    split
    · rename_i hlt
      rw [if_pos hlt] at h
      obtain ⟨⟨⟨k, st⟩, t, o⟩, hone⟩ :=
        (translateOne_total (h v (by simp))).holds c v.t
      rw [hone] at h
      obtain ⟨⟨st', t', o'⟩, hrest⟩ := ih (v := ⟨v.idx + k, st, t⟩) fun w hw => h w (by simp [hw])
      exact ⟨(st', t', o.append o'), by simp only [Bind.bind, TransM.bind, hone, hrest]⟩
    · exact ⟨_, rfl⟩

/-- An accepted straight line has accepted every instruction of its walk. -/
theorem translateBody_accepts_walk (he : e ≤ insns.length) {fuel i k : Nat} {c : Config}
    {t t' : Translator} {st st' : AbsState} {ops : List Op} (hwalk : WalkTo insns e i k)
    (hfuel : e ≤ i + fuel) (h : (translateBody insns e fuel i st).Accepts c t st' t' ops) :
    ∃ st t r t' ops, (translateOne k insns st).Accepts c t r t' ops := by
  induction hwalk generalizing fuel st t ops with
  | here hi =>
    obtain ⟨fuel, rfl⟩ : ∃ m, fuel = m + 1 := ⟨fuel - 1, by omega⟩
    unfold translateBody at h
    rw [if_pos hi] at h
    obtain ⟨r, t₁, o₁, hone, _⟩ := accepts_bind.mp h
    exact ⟨st, t, r, t₁, o₁, hone⟩
  | @next i k hi hwalk ih =>
    obtain ⟨fuel, rfl⟩ : ∃ m, fuel = m + 1 := ⟨fuel - 1, by omega⟩
    have hpos := insnSlots_pos (insnAt insns i)
    unfold translateBody at h
    rw [if_pos hi] at h
    obtain ⟨⟨n, st₁⟩, t₁, o₁, hone, o₂, hrest, _⟩ := accepts_bind.mp h
    obtain ⟨_, rfl, _⟩ := translateOne_accepts hone (by omega)
    exact ih (by omega) hrest

end Body

/-! ## The blocks -/

section Blocks

variable {insns : List Insn} {lead : Nat → Bool}
  (hlead : ∀ k, k < insns.length → (lead k = true ↔ IsLeader insns k))

include hlead

theorem IsBlock.span {b s e : Nat} (h : IsBlock insns lead b s e) : BlockSpan insns s e := by
  have hlt := h.start_lt
  have hle := h.end_le
  refine ⟨(hlead s (by omega)).mp h.start_lead, hlt, hle,
    fun hn => (hlead e hn).mp (h.end_lead hn).1, fun k hs he hk => ?_⟩
  have hinner := h.inner k hs he
  rw [(hlead k (by omega)).mpr hk] at hinner
  cases hinner

theorem BlockSpan.isBlock {s e : Nat} (h : BlockSpan insns s e) :
    ∃ b, b < (blockStarts insns.length lead).length ∧ IsBlock insns lead b s e := by
  have hlt := h.start_lt
  have hle := h.end_le
  have hs := starts_blockOf ((hlead s (by omega)).mpr h.leader) (show s < insns.length by omega)
  have hb := (List.getElem?_eq_some_iff.mp hs).1
  obtain ⟨s', e', hblock⟩ := Ect.isBlock hb
  obtain rfl : s = s' := Option.some.inj (hs.symm.trans hblock.start_eq)
  have hlt' := hblock.start_lt
  have hle' := hblock.end_le
  -- Both ends are the first leader past the start, or the end of the program.
  have heq : e' = e := by
    rcases Nat.lt_trichotomy e' e with h' | h' | h'
    · exact absurd ((hlead e' (by omega)).mp (hblock.end_lead (by omega)).1) (h.inner e' hlt' h')
    · exact h'
    · have hinner := hblock.inner e hlt h'
      rw [(hlead e (by omega)).mpr (h.end_leader (by omega))] at hinner
      cases hinner
  exact ⟨_, hb, heq ▸ hblock⟩

omit hlead in
theorem bodyEnd_le {e : Nat} (he : e ≤ insns.length) : bodyEnd insns e ≤ insns.length := by
  unfold bodyEnd
  split <;> omega

omit hlead in
/-- An accepted program has accepted every block. -/
theorem translateBlocks_accepts_block {c : Config} {b₀ s e : Nat} (hb : IsBlock insns lead b₀ s e)
    {m b : Nat} (hm : b + m = (blockStarts insns.length lead).length) (hle : b ≤ b₀)
    {blockIn : Nat → AbsState} {t t' : Translator} {mods : List (List Rule)} {ops : List Op}
    (h : (translateBlocks insns lead (List.range' b m) blockIn).Accepts c t mods t' ops) :
    ∃ st t t' st' flow ops, BlockLowered insns lead c s e st t t' st' flow ops := by
  have hb₀ := (List.getElem?_eq_some_iff.mp hb.start_eq).1
  induction m generalizing b blockIn t t' mods ops with
  | zero => omega
  | succ m ih =>
    rw [List.range'_succ] at h
    unfold translateBlocks at h
    obtain ⟨⟨bmods, blockIn'⟩, t₁, o₁, hblock, _, h₁, rfl⟩ := accepts_bind.mp h
    obtain ⟨rest, t₂, o₂, hrest, _⟩ := accepts_bind.mp h₁
    by_cases heq : b = b₀
    · subst heq
      obtain ⟨_, st', flow, o, hlow, _⟩ := translateBlock_accepts hb hblock
      exact ⟨_, _, _, _, _, _, hlow⟩
    · exact ih (by omega) (by omega) hrest

end Blocks

end Ect
