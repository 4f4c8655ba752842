-- SUMMARY: How `find_leaders` splits a program: instruction boundaries, leaders, and the extent of each block.
import Ect.Translate.Program
import Ect.Bpf.Vm
import Mathlib.Data.List.Nodup
import Mathlib.Data.List.Range

/-!
# Blocks

Facts about the block split of an accepted program. A position is a *boundary*
when a scan from the first instruction visits it, which is every position but
the second slots of wide immediates. Leaders are boundaries, blocks run from one
leader to the next, and an instruction that ends a block is the last of one.
-/

namespace Ect

open TransM

variable {insns : List Insn}

/-! ## Boundaries -/

/-- The positions a scan over the instruction list visits, and the one past the
last instruction. -/
inductive Boundary (insns : List Insn) : Nat → Prop where
  | zero : Boundary insns 0
  | next {i : Nat} : Boundary insns i → i < insns.length →
      Boundary insns (i + insnSlots (insnAt insns i))

theorem insnSlots_pos (i : Insn) : 0 < insnSlots i := by
  unfold insnSlots; split <;> decide

theorem insnSlots_le (i : Insn) : insnSlots i ≤ 2 := by
  unfold insnSlots; split <;> decide

theorem insnSlots_of_ldImm64 {i : Insn} (h : i.isLdImm64 = true) : insnSlots i = 2 := by
  simp [insnSlots, h]

theorem insnSlots_of_not_ldImm64 {i : Insn} (h : i.isLdImm64 = false) : insnSlots i = 1 := by
  simp [insnSlots, h]

private theorem mem_scanFrom_aux {fuel i k : Nat} (hi : Boundary insns i)
    (hk : k ∈ scanFrom insns fuel i) : Boundary insns k ∧ k < insns.length := by
  induction fuel generalizing i with
  | zero => simp [scanFrom] at hk
  | succ fuel ih =>
    simp only [scanFrom] at hk
    split at hk
    · rename_i hlt
      rcases List.mem_cons.mp hk with rfl | hk
      · exact ⟨hi, hlt⟩
      · exact ih (hi.next hlt) hk
    · simp at hk

/-- Two boundaries do not overlap: the later one lies past the slots of the
earlier one. -/
theorem Boundary.add_slots_le {i j : Nat} (hi : Boundary insns i) (hj : Boundary insns j)
    (hlt : i < j) : i + insnSlots (insnAt insns i) ≤ j := by
  -- Strong induction on the later boundary: its predecessor is before, at or
  -- after `i`, and the last case is the claim for a smaller pair.
  induction j using Nat.strong_induction_on generalizing i with
  | _ j ih =>
    cases hj with
    | zero => omega
    | @next j' hj' hlen =>
      have hslots := insnSlots_le (insnAt insns j')
      rcases Nat.lt_trichotomy i j' with h | h | h
      · have := ih j' (by have := insnSlots_pos (insnAt insns j'); omega) hi hj' h
        omega
      · subst h; omega
      · have := ih i hlt hj' hi h
        omega

private theorem scanFrom_complete {fuel i k : Nat} (hi : Boundary insns i)
    (hk : Boundary insns k) (hlen : k < insns.length) (hik : i ≤ k) (hfuel : k < fuel + i) :
    k ∈ scanFrom insns fuel i := by
  induction fuel generalizing i with
  | zero => omega
  | succ fuel ih =>
    have hilen : i < insns.length := by omega
    simp only [scanFrom, if_pos hilen, List.mem_cons]
    rcases Nat.eq_or_lt_of_le hik with h | h
    · exact .inl h.symm
    · right
      have hpos := insnSlots_pos (insnAt insns i)
      exact ih (hi.next hilen) (hi.add_slots_le hk h) (by omega)

theorem mem_scan {k : Nat} :
    k ∈ scanFrom insns insns.length 0 ↔ Boundary insns k ∧ k < insns.length := by
  constructor
  · exact mem_scanFrom_aux .zero
  · rintro ⟨hk, hlen⟩
    exact scanFrom_complete .zero hk hlen (Nat.zero_le k) (by omega)

/-- Every position is a boundary or the second slot of a wide immediate. -/
theorem boundary_or_second {k : Nat} (hk : k ≤ insns.length) :
    Boundary insns k ∨
      ∃ i, Boundary insns i ∧ (insnAt insns i).isLdImm64 = true ∧ k = i + 1 := by
  induction k with
  | zero => exact .inl .zero
  | succ k ih =>
    rcases ih (by omega) with h | ⟨i, hi, hld, rfl⟩
    · cases hw : (insnAt insns k).isLdImm64 with
      | true => exact .inr ⟨k, h, hw, rfl⟩
      | false =>
        have hn := h.next (by omega)
        rw [insnSlots_of_not_ldImm64 hw] at hn
        exact .inl hn
    · have hn := hi.next (by omega)
      rw [insnSlots_of_ldImm64 hld] at hn
      exact .inl hn

/-! ## Instructions that end a block -/

/-- The instruction ends its block: a jump other than one to the next
instruction. -/
def Insn.endsBlock (i : Insn) : Bool := i.isJmp && !i.isNopJump

/-- The instruction has a jump target. -/
def Insn.branches (i : Insn) : Bool := i.endsBlock && i.jmpOp != .exit && i.jmpOp != .call

theorem Insn.isLdImm64_eq_false_of_isJmp {i : Insn} (h : i.isJmp = true) :
    i.isLdImm64 = false := by
  cases hw : i.isLdImm64 with
  | false => rfl
  | true =>
    have hcode : i.code = 0x18#8 := by simpa [isLdImm64] using hw
    simp [isJmp, cls, hcode] at h

/-! ## Leaders -/

/-- What the loop marks at instruction `i`: the next instruction, and the target
of a jump. -/
def marks (insns : List Insn) (i k : Nat) : Prop :=
  ((insnAt insns i).endsBlock = true ∧ i + 1 < insns.length ∧ k = i + 1) ∨
    ((insnAt insns i).branches = true ∧ (k : Int) = jumpTarget i (insnAt insns i))

/-- The jump at `i`, if there is one, goes forward and stays in the program. -/
def goesForward (insns : List Insn) (i : Nat) : Prop :=
  (insnAt insns i).branches = true →
    (i : Int) < jumpTarget i (insnAt insns i) ∧ jumpTarget i (insnAt insns i) ≤ insns.length

theorem leaderStep_accepts {c : Config} {t t' : Translator} {ops : List Op} {i : Nat}
    {lead lead' : Nat → Bool} (h : (leaderStep insns i lead).Accepts c t lead' t' ops) :
    t' = t ∧ ops = [] ∧ goesForward insns i ∧
      ∀ k, lead' k = true ↔ lead k = true ∨ marks insns i k := by
  have hld := @Insn.isLdImm64_eq_false_of_isJmp (insnAt insns i)
  have htarget : (i : Int) + 1 + (insnAt insns i).off.toInt = jumpTarget i (insnAt insns i) := rfl
  unfold leaderStep at h
  simp only [htarget] at h
  split at h
  · -- not the end of a block
    rename_i hskip
    have hends : (insnAt insns i).endsBlock = false := by
      unfold Insn.endsBlock
      cases hj : (insnAt insns i).isJmp <;> simp_all
    obtain ⟨rfl, rfl, rfl⟩ := accepts_pure.mp h
    refine ⟨rfl, rfl, ?_, ?_⟩
    · intro hb; simp [Insn.branches, hends] at hb
    · intro k; simp [marks, Insn.branches, hends]
  · rename_i hskip
    have hends : (insnAt insns i).endsBlock = true := by
      simp only [Bool.or_eq_true, not_or, Bool.not_eq_true, Bool.not_eq_false'] at hskip
      simp [Insn.endsBlock, hskip]
    split at h
    · -- EXIT and CALL: only the next instruction is marked
      rename_i hop
      have hbr : (insnAt insns i).branches = false := by
        rcases hop with hop | hop <;> simp [Insn.branches, hop]
      obtain ⟨rfl, rfl, rfl⟩ := accepts_pure.mp h
      refine ⟨rfl, rfl, ?_, ?_⟩
      · intro hb; simp [hbr] at hb
      · intro k; simp [marks, hends, hbr]
    · rename_i hop
      have hbr : (insnAt insns i).branches = true := by
        simp only [not_or] at hop
        simp [Insn.branches, hends, hop]
      split at h
      · simp at h
      · rename_i hrange
        split at h
        · simp at h
        · rename_i hfwd
          simp at h
          obtain ⟨rfl, rfl, rfl⟩ := h
          refine ⟨rfl, rfl, fun _ => by omega, ?_⟩
          intro k
          simp only [marks, hends, hbr, Bool.or_eq_true, Bool.and_eq_true, decide_eq_true_eq,
            beq_iff_eq, true_and]
          constructor
          · rintro ((h | h) | h)
            · exact .inl h
            · exact .inr (.inl h)
            · exact .inr (.inr (by omega))
          · rintro (h | h | h)
            · exact .inl (.inl h)
            · exact .inl (.inr h)
            · exact .inr (by omega)

private theorem leaderLoop_accepts {c : Config} {t t' : Translator} {ops : List Op}
    {is : List Nat} {lead lead' : Nat → Bool}
    (h : (leaderLoop insns is lead).Accepts c t lead' t' ops) :
    t' = t ∧ ops = [] ∧ (∀ i ∈ is, goesForward insns i) ∧
      ∀ k, lead' k = true ↔ lead k = true ∨ ∃ i ∈ is, marks insns i k := by
  induction is generalizing lead t ops with
  | nil => simp [leaderLoop] at h; simp [h]
  | cons i is ih =>
    simp only [leaderLoop, accepts_bind] at h
    obtain ⟨lead₁, t₁, o₁, h₁, o₂, h₂, rfl⟩ := h
    obtain ⟨rfl, rfl, hfwd₁, hlead₁⟩ := leaderStep_accepts h₁
    obtain ⟨rfl, rfl, hfwd, hlead⟩ := ih h₂
    refine ⟨rfl, rfl, ?_, ?_⟩
    · intro j hj
      rcases List.mem_cons.mp hj with rfl | hj
      · exact hfwd₁
      · exact hfwd j hj
    · intro k
      rw [hlead, hlead₁]
      simp only [List.mem_cons, exists_eq_or_imp, or_assoc]

/-- A block starts here. -/
def IsLeader (insns : List Insn) (k : Nat) : Prop :=
  k = 0 ∨ ∃ i, Boundary insns i ∧ i < insns.length ∧ marks insns i k

/-- The leaders of an accepted program: the first instruction, whatever follows
the end of a block, and the targets of jumps, all of which go forward. -/
structure Leaders (insns : List Insn) (lead : Nat → Bool) : Prop where
  iff : ∀ k, lead k = true ↔
    k = 0 ∨ ∃ i, Boundary insns i ∧ i < insns.length ∧ marks insns i k
  forward : ∀ i, Boundary insns i → i < insns.length → goesForward insns i

theorem findLeaders_accepts {c : Config} {t t' : Translator} {ops : List Op} {lead : Nat → Bool}
    (h : (findLeaders insns).Accepts c t lead t' ops) :
    t' = t ∧ ops = [] ∧ Leaders insns lead := by
  obtain ⟨ht, hops, hfwd, hlead⟩ := leaderLoop_accepts h
  refine ⟨ht, hops, ⟨?_, ?_⟩⟩
  · intro k
    rw [hlead]
    simp only [beq_iff_eq, mem_scan, and_assoc]
  · intro i hi hlen
    exact hfwd i (mem_scan.mpr ⟨hi, hlen⟩)

theorem Leaders.isLeader_iff (h : Leaders insns lead) (k : Nat) :
    lead k = true ↔ IsLeader insns k := h.iff k

/-! ## The leaders of a program that need not be accepted -/

/-- The method returns `a` and leaves the translator as it is, from any state. -/
def TransM.Yields {α : Type} (m : TransM α) (a : α) : Prop := ∀ c t, ∃ o, m c t = .ok (a, t, o)

section Yields

variable {α β : Type}

theorem yields_pure {a : α} : (pure a : TransM α).Yields a := fun _ _ => ⟨_, rfl⟩

theorem yields_unsupported {idx : Nat} {msg : String} : (unsupported idx msg).Yields () :=
  fun _ _ => ⟨_, rfl⟩

theorem TransM.Yields.bind {x : TransM α} {f : α → TransM β} {a : α} {b : β} (hx : x.Yields a)
    (hf : (f a).Yields b) : (x >>= f).Yields b := by
  intro c t
  obtain ⟨o₁, h₁⟩ := hx c t
  obtain ⟨o₂, h₂⟩ := hf c t
  exact ⟨o₁.append o₂, by simp only [Bind.bind, TransM.bind, h₁, h₂]⟩

theorem leaderStep_yields {i : Nat} (hi : i < insns.length) (lead : Nat → Bool) :
    ∃ lead', (leaderStep insns i lead).Yields lead' ∧
      ∀ k, k < insns.length → (lead' k = true ↔ lead k = true ∨ marks insns i k) := by
  have hld := @Insn.isLdImm64_eq_false_of_isJmp (insnAt insns i)
  have htarget : (i : Int) + 1 + (insnAt insns i).off.toInt = jumpTarget i (insnAt insns i) := rfl
  unfold leaderStep
  simp only [htarget]
  split
  · -- not the end of a block
    rename_i hskip
    have hends : (insnAt insns i).endsBlock = false := by
      unfold Insn.endsBlock
      cases hj : (insnAt insns i).isJmp <;> simp_all
    exact ⟨_, yields_pure, fun k _ => by simp [marks, Insn.branches, hends]⟩
  · rename_i hskip
    have hends : (insnAt insns i).endsBlock = true := by
      simp only [Bool.or_eq_true, not_or, Bool.not_eq_true, Bool.not_eq_false'] at hskip
      simp [Insn.endsBlock, hskip]
    split
    · -- EXIT and CALL: only the next instruction is marked
      rename_i hop
      have hbr : (insnAt insns i).branches = false := by
        rcases hop with hop | hop <;> simp [Insn.branches, hop]
      exact ⟨_, yields_pure, fun k _ => by simp [marks, hends, hbr]⟩
    · rename_i hop
      have hbr : (insnAt insns i).branches = true := by
        simp only [not_or] at hop
        simp [Insn.branches, hends, hop]
      split
      · -- out of range: no position of the program is the target
        refine ⟨_, yields_unsupported.bind yields_pure, fun k hk => ?_⟩
        simp only [marks, hends, hbr, Bool.or_eq_true, Bool.and_eq_true, decide_eq_true_eq,
          beq_iff_eq, true_and]
        constructor
        · rintro (h | h)
          · exact .inl h
          · exact .inr (.inl h)
        · rintro (h | h | h)
          · exact .inl h
          · exact .inr h
          · omega
      · have hmarks : ∀ k, ((fun k => (lead k || (i + 1 < insns.length && k == i + 1)) ||
            k == (jumpTarget i (insnAt insns i)).toNat) k) = true ↔
              lead k = true ∨ marks insns i k := by
          intro k
          simp only [marks, hends, hbr, Bool.or_eq_true, Bool.and_eq_true, decide_eq_true_eq,
            beq_iff_eq, true_and, or_assoc]
          refine or_congr_right (or_congr_right ?_)
          omega
        split
        · exact ⟨_, yields_unsupported.bind yields_pure, fun k _ => hmarks k⟩
        · exact ⟨_, yields_pure.bind yields_pure, fun k _ => hmarks k⟩

private theorem leaderLoop_yields {is : List Nat} (his : ∀ i ∈ is, i < insns.length)
    (lead : Nat → Bool) :
    ∃ lead', (leaderLoop insns is lead).Yields lead' ∧
      ∀ k, k < insns.length → (lead' k = true ↔ lead k = true ∨ ∃ i ∈ is, marks insns i k) := by
  induction is generalizing lead with
  | nil => exact ⟨lead, yields_pure, by simp⟩
  | cons i is ih =>
    obtain ⟨lead₁, h₁, hlead₁⟩ := leaderStep_yields (his i (by simp)) lead
    obtain ⟨lead₂, h₂, hlead₂⟩ := ih (fun j hj => his j (by simp [hj])) lead₁
    refine ⟨lead₂, h₁.bind h₂, fun k hk => ?_⟩
    rw [hlead₂ k hk, hlead₁ k hk]
    simp only [List.mem_cons, exists_eq_or_imp, or_assoc]

/-- The split never raises, and finds the same leaders whether or not it complains. -/
theorem findLeaders_yields (insns : List Insn) :
    ∃ lead, (findLeaders insns).Yields lead ∧
      ∀ k, k < insns.length → (lead k = true ↔ IsLeader insns k) := by
  obtain ⟨lead, hyields, hlead⟩ := @leaderLoop_yields insns (scanFrom insns insns.length 0)
    (fun i hi => (mem_scan.mp hi).2) (fun k => k == 0)
  refine ⟨lead, hyields, fun k hk => ?_⟩
  rw [hlead k hk]
  simp only [IsLeader, beq_iff_eq, mem_scan, and_assoc]

end Yields

/-! ## The block table -/

section BlockTable

variable {n : Nat} {lead : Nat → Bool}

/-- How many leaders lie below `k`. -/
def leadersBelow (lead : Nat → Bool) (k : Nat) : Nat := (blockStarts k lead).length

theorem blockStarts_succ (k : Nat) :
    blockStarts (k + 1) lead = blockStarts k lead ++ (if lead k = true then [k] else []) := by
  simp only [blockStarts, List.range_succ, List.filter_append, List.filter_cons, List.filter_nil]

theorem leadersBelow_succ (k : Nat) :
    leadersBelow lead (k + 1) = leadersBelow lead k + (if lead k = true then 1 else 0) := by
  simp only [leadersBelow, blockStarts_succ, List.length_append]
  split <;> rfl

theorem leadersBelow_mono {j k : Nat} (h : j ≤ k) : leadersBelow lead j ≤ leadersBelow lead k := by
  induction h with
  | refl => exact Nat.le_refl _
  | step _ ih => rw [leadersBelow_succ]; omega

theorem leadersBelow_lt {j k : Nat} (hj : lead j = true) (h : j < k) :
    leadersBelow lead j < leadersBelow lead k := by
  have h₁ := @leadersBelow_succ lead j
  rw [if_pos hj] at h₁
  have h₂ : leadersBelow lead (j + 1) ≤ leadersBelow lead k := leadersBelow_mono h
  omega

theorem blockOf_leader {k : Nat} (hk : lead k = true) : blockOf lead k = leadersBelow lead k := by
  have h := @leadersBelow_succ lead k
  rw [if_pos hk] at h
  simp only [blockOf]
  simp only [leadersBelow] at h ⊢
  omega

/-- The block of a leader starts at it. -/
theorem starts_blockOf {k : Nat} (hk : lead k = true) (hlt : k < n) :
    (blockStarts n lead)[blockOf lead k]? = some k := by
  rw [blockOf_leader hk]
  induction n with
  | zero => omega
  | succ n ih =>
    rw [blockStarts_succ]
    rcases Nat.lt_succ_iff_lt_or_eq.mp hlt with h | rfl
    · have hlen := leadersBelow_lt hk h
      rw [List.getElem?_append_left hlen]
      exact ih h
    · simp [leadersBelow, hk]

theorem leader_of_starts {b s : Nat} (h : (blockStarts n lead)[b]? = some s) :
    lead s = true ∧ s < n := by
  have hmem := List.mem_of_getElem? h
  simpa [blockStarts, and_comm] using hmem

theorem blockOf_starts {b s : Nat} (h : (blockStarts n lead)[b]? = some s) :
    blockOf lead s = b := by
  obtain ⟨hlead, hlt⟩ := leader_of_starts h
  have hs := starts_blockOf hlead hlt
  have hnd : (blockStarts n lead).Nodup := List.Nodup.filter _ List.nodup_range
  obtain ⟨hb, hbs⟩ := List.getElem?_eq_some_iff.mp h
  obtain ⟨hb', hbs'⟩ := List.getElem?_eq_some_iff.mp hs
  exact (hnd.getElem_inj_iff).mp (hbs'.trans hbs.symm)

theorem starts_lt {b b' s s' : Nat} (h : (blockStarts n lead)[b]? = some s)
    (h' : (blockStarts n lead)[b']? = some s') : b < b' ↔ s < s' := by
  have hb := blockOf_starts h
  have hb' := blockOf_starts h'
  have hs := (leader_of_starts h).1
  have hs' := (leader_of_starts h').1
  rw [blockOf_leader hs] at hb
  rw [blockOf_leader hs'] at hb'
  constructor
  · intro hlt
    by_contra hle
    have := (@leadersBelow_mono lead) (Nat.le_of_not_lt hle)
    omega
  · intro hlt
    have := leadersBelow_lt hs hlt
    omega

/-- The positions of a block: from a leader up to, and not including, the next
leader or the end of the program. -/
structure IsBlock (insns : List Insn) (lead : Nat → Bool) (b start end_ : Nat) : Prop where
  start_eq : (blockStarts insns.length lead)[b]? = some start
  end_eq : blockEnd insns (blockStarts insns.length lead) b = end_
  start_lead : lead start = true
  start_lt : start < end_
  end_le : end_ ≤ insns.length
  end_lead : end_ < insns.length → lead end_ = true ∧ blockOf lead end_ = b + 1
  inner : ∀ k, start < k → k < end_ → lead k = false

theorem isBlock {b : Nat} (hb : b < (blockStarts insns.length lead).length) :
    ∃ start end_, IsBlock insns lead b start end_ := by
  set starts := blockStarts insns.length lead with hstarts
  have hstart : starts[b]? = some starts[b] := List.getElem?_eq_getElem hb
  obtain ⟨hlead, hlt⟩ := leader_of_starts hstart
  by_cases hnext : b + 1 < starts.length
  · -- the next leader ends the block
    have hend : starts[b + 1]? = some starts[b + 1] := List.getElem?_eq_getElem hnext
    have heq : blockEnd insns starts b = starts[b + 1] := by
      simp [blockEnd, hend]
    obtain ⟨hlead', hlt'⟩ := leader_of_starts hend
    refine ⟨starts[b], starts[b + 1], hstart, heq, hlead, (starts_lt hstart hend).mp (by omega),
      by omega, fun _ => ⟨hlead', blockOf_starts hend⟩, ?_⟩
    intro k hk₁ hk₂
    by_contra hk
    have hk' : lead k = true := by simpa using hk
    have hks := starts_blockOf hk' (show k < insns.length by omega)
    have h₁ := (starts_lt hstart hks).mpr hk₁
    have h₂ := (starts_lt hks hend).mpr hk₂
    omega
  · -- the last block runs to the end of the program
    have hend : starts[b + 1]? = none := List.getElem?_eq_none (by omega)
    have heq : blockEnd insns starts b = insns.length := by
      simp [blockEnd, hend]
    refine ⟨starts[b], insns.length, hstart, heq, hlead, hlt, Nat.le_refl _, fun h => by omega, ?_⟩
    intro k hk₁ hk₂
    by_contra hk
    have hk' : lead k = true := by simpa using hk
    have hks := starts_blockOf hk' hk₂
    have h₁ := (starts_lt hstart hks).mpr hk₁
    have h₂ : blockOf lead k < starts.length := (List.getElem?_eq_some_iff.mp hks).1
    omega

/-- Every position lies in a block. -/
theorem exists_block (h0 : lead 0 = true) {k : Nat} (hk : k < insns.length) :
    ∃ b start end_, IsBlock insns lead b start end_ ∧ start ≤ k ∧ k < end_ := by
  have hpos : leadersBelow lead 1 ≤ leadersBelow lead (k + 1) := leadersBelow_mono (by omega)
  have hone : leadersBelow lead 1 = 1 := by simp [h0, leadersBelow, blockStarts]
  have hof : blockOf lead k + 1 = leadersBelow lead (k + 1) := by
    simp only [blockOf, leadersBelow] at *
    omega
  have htotal : leadersBelow lead (k + 1) ≤ (blockStarts insns.length lead).length :=
    leadersBelow_mono hk
  have hlt : blockOf lead k < (blockStarts insns.length lead).length := by omega
  obtain ⟨start, end_, hb⟩ := isBlock hlt
  refine ⟨_, start, end_, hb, ?_, ?_⟩
  · by_contra hlt
    have hstart := blockOf_starts hb.start_eq
    rw [blockOf_leader hb.start_lead] at hstart
    have : leadersBelow lead (k + 1) ≤ leadersBelow lead start := leadersBelow_mono (by omega)
    omega
  · by_contra hle
    obtain ⟨hlead, hblk⟩ := hb.end_lead (by omega)
    rw [blockOf_leader hlead] at hblk
    have := leadersBelow_lt hlead (show end_ < k + 1 by omega)
    omega

end BlockTable

end Ect
