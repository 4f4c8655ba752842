-- SUMMARY: Walks of well-formed programs: every step goes forward from one instruction to another.
import Ect.Lowering.Walk

/-!
# Paths

In a program whose wide immediates have an empty second slot, an accepted
translation leaves no way into the middle of one: every point of a run is at an
instruction, and control goes exactly where the instruction says. `Path` is a walk
with that spelled out.
-/

namespace Ect

open TransM

variable {insns : List Insn} {lead : Nat → Bool} {c : Config} {len : Nat → Nat}

/-- The second slot of a wide immediate has opcode 0. -/
def WideSlots (insns : List Insn) : Prop :=
  ∀ k, Boundary insns k → k + 1 < insns.length → (insnAt insns k).isLdImm64 = true →
    (insnAt insns (k + 1)).code = 0#8

/-! ## Opcode 0 -/

theorem Insn.endsBlock_of_code_zero {i : Insn} (h : i.code = 0#8) : i.endsBlock = false := by
  simp [endsBlock, isJmp, cls, h]

theorem translateOne_code_zero {k i : Nat} {st st' : AbsState} {t t' : Translator} {ops : List Op}
    (h : (insnAt insns i).code = 0#8) :
    ¬(translateOne i insns st).Accepts c t (k, st') t' ops := by
  intro hacc
  unfold translateOne at hacc
  obtain ⟨_, _, _, h₁⟩ := hacc.tail
  have hnop : (insnAt insns i).isNopJump = false := by
    simp [Insn.isNopJump, Insn.isJmp, Insn.cls, h]
  have hld : (insnAt insns i).isLdImm64 = false := by simp [Insn.isLdImm64, h]
  simp only [hnop, hld, Bool.false_eq_true, if_false] at h₁
  obtain ⟨_, _, _, hplain, _⟩ := accepts_bind.mp h₁
  have hcls : (insnAt insns i).cls = .ld := by simp [Insn.cls, h]
  have hmode : (insnAt insns i).mode = .imm := by simp [Insn.mode, h]
  simp [translatePlain, hcls, hmode] at hplain

theorem insnAt_ge {i : Nat} (h : insns.length ≤ i) : (insnAt insns i).code = 0#8 := by
  have hnone : insns[i]? = none := List.getElem?_eq_none h
  simp [insnAt, List.getD, hnone, default]

theorem lt_of_endsBlock {k : Nat} (h : (insnAt insns k).endsBlock = true) : k < insns.length := by
  by_contra hge
  rw [Insn.endsBlock_of_code_zero (insnAt_ge (Nat.le_of_not_lt hge))] at h
  cases h

/-- The block at every leader is translated, so a leader is an instruction. -/
theorem leader_code_ne_zero {t t' : Translator} {m b : Nat} {blockIn : Nat → AbsState}
    {mods : List (List Rule)} {ops : List Op}
    (hm : b + m = (blockStarts insns.length lead).length)
    (h : (translateBlocks insns lead (List.range' b m) blockIn).Accepts c t mods t' ops) {k : Nat}
    (hk : lead k = true) (hlt : k < insns.length) (hbk : b ≤ blockOf lead k) :
    (insnAt insns k).code ≠ 0#8 := by
  induction m generalizing b blockIn t t' mods ops with
  | zero =>
    obtain ⟨hbound, _⟩ := List.getElem?_eq_some_iff.mp (starts_blockOf hk hlt)
    omega
  | succ m ih =>
    rw [List.range'_succ] at h
    unfold translateBlocks at h
    obtain ⟨⟨bmods, blockIn'⟩, t₁, o₁, hblock, _, h₁, rfl⟩ := accepts_bind.mp h
    obtain ⟨rest, t₂, o₂, hrest, _, _, rfl⟩ := accepts_bind.mp h₁
    by_cases hbb : blockOf lead k = b
    · obtain ⟨start, end_, hb⟩ := @isBlock insns lead b (by omega)
      have hks := starts_blockOf hk hlt
      rw [hbb, hb.start_eq] at hks
      obtain rfl := Option.some.inj hks
      obtain ⟨_, _, _, _, ⟨_, _, _, _, hbody, _, _⟩, _, _⟩ := translateBlock_accepts hb hblock
      intro hcode
      have hstart := hb.start_lt
      by_cases hin : start < bodyEnd insns end_
      · -- the first instruction of the body is translated
        obtain ⟨fuel, hfuel⟩ : ∃ fuel, bodyEnd insns end_ - start = fuel + 1 :=
          ⟨bodyEnd insns end_ - start - 1, by omega⟩
        rw [hfuel] at hbody
        simp only [translateBody, if_pos hin] at hbody
        obtain ⟨⟨_, _⟩, _, _, hone, _⟩ := accepts_bind.mp hbody
        exact translateOne_code_zero hcode hone
      · -- the block is its terminator alone
        have hterm : (insnAt insns (end_ - 1)).endsBlock = true := by
          by_contra hno
          simp [bodyEnd, hno] at hin
          omega
        have hone : end_ - 1 = start := by
          simp only [bodyEnd, hterm, if_true] at hin; omega
        rw [hone, Insn.endsBlock_of_code_zero hcode] at hterm
        cases hterm
    · exact ih (b := b + 1) (by omega) hrest (by omega)

/-! ## Where control goes -/

section Control

variable {p : Point} {j : Int} {st : AbsState} {t : Translator} {σ₁ : State}

theorem Moves.lt (hm : Moves insns c len p j st t σ₁) : p.idx < insns.length := by
  by_contra hge
  have hcode := insnAt_ge (Nat.le_of_not_lt hge)
  have hends := Insn.endsBlock_of_code_zero hcode
  cases hm with
  | insn h => exact translateOne_code_zero hcode h
  | ja h => rw [hends] at h; cases h
  | cond h => simp [Insn.branches, hends] at h
  | call h => rw [hends] at h; cases h
  | arms h => rw [hends] at h; cases h

/-- The positions control can go to. -/
theorem Moves.target (hm : Moves insns c len p j st t σ₁) :
    ((insnAt insns p.idx).endsBlock = false ∧
        j = (p.idx + insnSlots (insnAt insns p.idx) : Nat) ∧
        p.idx + insnSlots (insnAt insns p.idx) ≤ insns.length) ∨
      ((insnAt insns p.idx).endsBlock = true ∧
        (j = (p.idx + 1 : Nat) ∨
          (insnAt insns p.idx).branches = true ∧ j = jumpTarget p.idx (insnAt insns p.idx))) := by
  have hlt := hm.lt
  cases hm with
  | insn h =>
    obtain ⟨hends, rfl, hle⟩ := translateOne_accepts h hlt
    exact .inl ⟨hends, rfl, hle⟩
  | ja hends hop => exact .inr ⟨hends, .inr ⟨by simp [Insn.branches, hends, hop], rfl⟩⟩
  | @cond _ _ taken _ _ _ hbr =>
    have hends : (insnAt insns p.idx).endsBlock = true := by
      simp only [Insn.branches, Bool.and_eq_true] at hbr; exact hbr.1.1
    cases taken with
    | true => exact .inr ⟨hends, .inr ⟨hbr, rfl⟩⟩
    | false => exact .inr ⟨hends, .inl rfl⟩
  | call hends => exact .inr ⟨hends, .inl rfl⟩
  | arms hends => exact .inr ⟨hends, .inl rfl⟩

/-- Control goes forward, to the end of the program or to a position in it. -/
theorem Moves.forward (hl : Leaders insns lead) (hb : Boundary insns p.idx)
    (hm : Moves insns c len p j st t σ₁) :
    ∃ k : Nat, (k : Int) = j ∧ p.idx < k ∧ k ≤ insns.length ∧
      ((insnAt insns p.idx).endsBlock = true → k < insns.length → lead k = true) := by
  have hlt := hm.lt
  have hpos := insnSlots_pos (insnAt insns p.idx)
  rcases hm.target with ⟨hends, rfl, hle⟩ | ⟨hends, rfl | ⟨hbr, rfl⟩⟩
  · exact ⟨_, rfl, by omega, hle, fun h => by rw [hends] at h; cases h⟩
  · refine ⟨_, rfl, by omega, hlt, fun _ hk => ?_⟩
    exact (hl.iff _).mpr (.inr ⟨_, hb, hlt, .inl ⟨hends, hk, rfl⟩⟩)
  · obtain ⟨hfwd, hle⟩ := hl.forward _ hb hlt hbr
    refine ⟨(jumpTarget p.idx (insnAt insns p.idx)).toNat, by omega, by omega, by omega,
      fun _ _ => ?_⟩
    exact (hl.iff _).mpr (.inr ⟨_, hb, hlt, .inr ⟨hbr, by omega⟩⟩)

end Control

/-- A walk of a well-formed program: from instruction to instruction, always
forward. -/
inductive Path (insns : List Insn) (c : Config) (len : Nat → Nat) : Point → State → Prop where
  | off {p : Point} {σ' : State} (h : p.idx = insns.length) (hσ : p.σ.SameOffPc σ') :
      Path insns c len p σ'
  | exit {p : Point} {σ' : State} (hb : Boundary insns p.idx) (hlt : p.idx < insns.length)
      (hends : (insnAt insns p.idx).endsBlock = true) (hop : (insnAt insns p.idx).jmpOp = .exit)
      (hσ : p.σ.SameOffPc σ') :
      Path insns c len p σ'
  | hop {p q : Point} {j : Int} {st : AbsState} {t : Translator} {σ₁ σ' : State}
      (hb : Boundary insns p.idx) (hlt : p.idx < insns.length)
      (hm : Moves insns c len p j st t σ₁) (hj : (q.idx : Int) = j) (hfwd : p.idx < q.idx)
      (hle : q.idx ≤ insns.length) (hst : st ≤ q.st) (hσ : σ₁.SameOffPc q.σ)
      (hpath : Path insns c len q σ') :
      Path insns c len p σ'

section Straight

variable (hl : Leaders insns lead) (hwide : WideSlots insns)
  (hlead : ∀ k, lead k = true → k < insns.length → (insnAt insns k).code ≠ 0#8)
include hl hwide hlead

/-- Where every leader is an instruction, control goes on to the next instruction. -/
theorem Moves.continues {p q : Point} {j : Int} {st : AbsState} {t : Translator} {σ₁ : State}
    (hm : Moves insns c len p j st t σ₁) (hj : Continues insns lead p.idx j q.idx)
    (hb : Boundary insns p.idx) :
    (q.idx : Int) = j ∧ p.idx < q.idx ∧ q.idx ≤ insns.length ∧
      (q.idx = insns.length ∨ Boundary insns q.idx) := by
  have hlt := hm.lt
  obtain ⟨k, hkj, hlt', hle, hk⟩ := hm.forward hl hb
  have hqk : q.idx = k := by
    rcases hj with h | ⟨hq, hld, hmid⟩
    · omega
    · -- the second slot of a wide immediate neither starts nor ends a block
      have hends : (insnAt insns p.idx).endsBlock = false := by
        unfold Insn.endsBlock
        cases hjmp : (insnAt insns p.idx).isJmp with
        | false => rfl
        | true => rw [Insn.isLdImm64_eq_false_of_isJmp hjmp] at hld; cases hld
      have htwo : j = (p.idx + 2 : Nat) := by
        rcases hm.target with ⟨_, h, _⟩ | ⟨h, _⟩
        · rw [insnSlots_of_ldImm64 hld] at h; exact h
        · rw [hends] at h; cases h
      have hsec := hwide p.idx hb (by omega) hld
      rw [← hq] at hsec
      rcases hmid with h | h
      · exact absurd hsec (hlead _ h (by omega))
      · rw [Insn.endsBlock_of_code_zero hsec] at h; cases h
  refine ⟨by omega, by omega, by omega, ?_⟩
  rw [hqk]
  rcases Nat.eq_or_lt_of_le hle with h | h
  · exact .inl h
  · right
    rcases hm.target with ⟨_, hslots, _⟩ | ⟨hends, _⟩
    · have := hb.next hlt
      rw [show k = p.idx + insnSlots (insnAt insns p.idx) by omega]
      exact this
    · have hkl := hk hends h
      rcases boundary_or_second (Nat.le_of_lt h) with hbk | ⟨i, hi, hld, rfl⟩
      · exact hbk
      · exact absurd (hwide i hi h hld) (hlead _ hkl h)

omit hwide hlead in
/-- No jump gets lost. -/
theorem Moves.not_lost {p : Point} {j : Int} {st : AbsState} {t : Translator} {σ₁ : State}
    (hends : (insnAt insns p.idx).endsBlock = true) (hm : Moves insns c len p j st t σ₁)
    (hlost : ∀ k : Nat, (k : Int) = j → p.idx < k →
      k ≠ insns.length ∧ (k < insns.length → lead k = false))
    (hb : Boundary insns p.idx) : False := by
  obtain ⟨k, hkj, hlt', hle, hk⟩ := hm.forward hl hb
  obtain ⟨hne, hno⟩ := hlost k hkj hlt'
  have hlt : k < insns.length := by omega
  rw [hk hends hlt] at hno
  exact absurd (hno hlt) (by simp)

/-- A walk is a path when every leader is an instruction. -/
theorem Walk.path {ps : List Point} {p : Point} {σ' : State} (hw : Walk insns lead c len ps p σ')
    (hb : p.idx = insns.length ∨ Boundary insns p.idx) : Path insns c len p σ' := by
  induction hw with
  | off h hσ => exact .off h hσ
  | exit hends hop hσ =>
    have hlt := lt_of_endsBlock hends
    exact .exit (hb.resolve_left (by omega)) hlt hends hop hσ
  | lost hends hm hlost _ =>
    have hlt := hm.lt
    exact (hm.not_lost hl hends hlost (hb.resolve_left (by omega))).elim
  | hop hm hj hst _ hσ _ ih =>
    have hlt := hm.lt
    have hbp := hb.resolve_left (by omega)
    obtain ⟨hqj, hfwd, hle, hbq⟩ := hm.continues hl hwide hlead hj hbp
    exact .hop hbp hlt hm hqj hfwd hle hst hσ (ih hbq)

end Straight

/-- Every leader of an accepted program is an instruction. -/
theorem translateProgram_leaders {t' : Translator} {mods : List (List Rule)} {ops : List Op}
    (h : (translateProgram insns).Accepts c .init mods t' ops) (hl : Leaders insns lead) :
    ∀ k, lead k = true → k < insns.length → (insnAt insns k).code ≠ 0#8 := by
  intro k hk hlt
  unfold translateProgram at h
  obtain ⟨lead', t₀, o₀, hfind, _, h₁, _⟩ := accepts_bind.mp h
  obtain ⟨_, _, hl'⟩ := findLeaders_accepts hfind
  obtain ⟨rest, t₁, o₁, hblocks, _⟩ := accepts_bind.mp h₁
  rw [List.range_eq_range'] at hblocks
  exact leader_code_ne_zero (by omega) hblocks ((hl'.iff k).mpr ((hl.iff k).mp hk)) hlt (by omega)

/-- The run of an accepted well-formed program is a path from its first
instruction. -/
theorem translateProgram_path {t' : Translator} {mods : List (List Rule)} {ops : List Op}
    (hlen : decidePc insns.length < 2 ^ 64) (hwide : WideSlots insns)
    (h : (translateProgram insns).Accepts c .init mods t' ops) (mem : Nat → Nat → Cell) :
    ∃ q, q.idx = 0 ∧ entryState ≤ q.st ∧ (entryRun insns mem).SameOffPc q.σ ∧
      Path insns c len q (runModules len (State.initial mem) mods) := by
  obtain ⟨lead, q, hl, hidx, hst, _, hσ, hw⟩ := translateProgram_walk hlen h mem
  have hlead := translateProgram_leaders h hl
  exact ⟨q, hidx, hst, hσ, hw.path hl hwide hlead (.inr (by rw [hidx]; exact .zero))⟩

end Ect
