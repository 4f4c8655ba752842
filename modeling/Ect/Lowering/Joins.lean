-- SUMMARY: How far joining what is known of a register is a semilattice join.
import Ect.Lowering.Flow

/-!
# Joins

The join of two abstract values is commutative, associative and an upper bound, whatever the
values are. It clears the offset of a pointer whose offset is not known, which the
instructions that forget an offset leave in place; on such a value it is not idempotent, so
that a block entered twice with the value knows something else than one entered once.
-/

namespace Ect

open TransM

/-! ## Abstract values -/

/-- No offset is left over where none is known. -/
def RegInfo.Settled (a : RegInfo) : Prop := a.offKnown = true ∨ a.off = 0

instance {a : RegInfo} : Decidable a.Settled := by unfold RegInfo.Settled; infer_instance

/-- The value with its leftover offset cleared. -/
def RegInfo.settle (a : RegInfo) : RegInfo := if a.offKnown then a else { a with off := 0 }

theorem RegInfo.settle_eq_self {a : RegInfo} : a.settle = a ↔ a.Settled := by
  obtain ⟨tag, off, offKnown, mapidx, const⟩ := a
  cases offKnown <;> simp [settle, Settled, eq_comm]

section Join

variable (a b c : RegInfo)

theorem joinReg_comm : joinReg a b = joinReg b a := by
  by_cases hkey : a.tag ≠ b.tag ∨ a.mapidx ≠ b.mapidx
  · have hkey' : b.tag ≠ a.tag ∨ b.mapidx ≠ a.mapidx := hkey.imp Ne.symm Ne.symm
    rw [joinReg, joinReg, if_pos hkey, if_pos hkey']
  · obtain ⟨htag, hidx⟩ : a.tag = b.tag ∧ a.mapidx = b.mapidx := by simpa [not_or] using hkey
    simp only [joinReg, htag, hidx, ne_eq, not_true_eq_false, or_self, if_false]
    -- the offset and the constant are each the common one, or none
    have hknown : (b.offKnown && a.offKnown && b.off == a.off) =
        (a.offKnown && b.offKnown && a.off == b.off) := by
      rw [Bool.and_comm b.offKnown, Bool.beq_comm]
    rw [hknown]
    congr 1
    · split
      · rename_i h
        simp only [Bool.and_eq_true, beq_iff_eq] at h
        exact h.2
      · rfl
    · by_cases h : a.const = b.const
      · rw [if_pos h, if_pos h.symm, h]
      · rw [if_neg h, if_neg (Ne.symm h)]

theorem joinReg_self : joinReg a a = a.settle := by
  obtain ⟨tag, off, offKnown, mapidx, const⟩ := a
  cases offKnown <;> simp [joinReg, RegInfo.settle]

variable {a b c}

/-- What is left of two values that disagree on the tag or the map. -/
def RegInfo.top : RegInfo := ⟨.unknown, 0, false, -1, none⟩

theorem joinReg_of_ne (h : ¬(a.tag = b.tag ∧ a.mapidx = b.mapidx)) : joinReg a b = .top := by
  have hkey : a.tag ≠ b.tag ∨ a.mapidx ≠ b.mapidx := by tauto
  rw [joinReg, if_pos hkey]
  rfl

theorem joinReg_of_eq (h : a.tag = b.tag ∧ a.mapidx = b.mapidx) :
    (joinReg a b).tag = a.tag ∧ (joinReg a b).mapidx = a.mapidx := by
  have hkey : ¬(a.tag ≠ b.tag ∨ a.mapidx ≠ b.mapidx) := by tauto
  rw [joinReg, if_neg hkey]
  exact ⟨rfl, rfl⟩

theorem joinReg_top : joinReg a .top = .top := by
  by_cases h : a.tag = RegInfo.top.tag ∧ a.mapidx = RegInfo.top.mapidx
  · obtain ⟨tag, off, offKnown, mapidx, const⟩ := a
    obtain ⟨rfl, rfl⟩ := h
    cases const <;> simp [joinReg, RegInfo.top]
  · exact joinReg_of_ne h

variable (a b c)

theorem joinReg_assoc : joinReg (joinReg a b) c = joinReg a (joinReg b c) := by
  by_cases hab : a.tag = b.tag ∧ a.mapidx = b.mapidx
  · by_cases hbc : b.tag = c.tag ∧ b.mapidx = c.mapidx
    · -- all three agree: the offset and the constant are each the common one, or none
      obtain ⟨ta, oa, ka, ma, ca⟩ := a
      obtain ⟨tb, ob, kb, mb, cb⟩ := b
      obtain ⟨tc, oc, kc, mc, cc⟩ := c
      obtain ⟨rfl, rfl⟩ := hab
      obtain ⟨rfl, rfl⟩ := hbc
      simp only [joinReg, ne_eq, not_true_eq_false, or_self, if_false, RegInfo.mk.injEq, true_and]
      refine ⟨?_, ?_, ?_⟩
      · cases ka <;> cases kb <;> cases kc <;> by_cases h : oa = ob <;> by_cases h' : ob = oc <;>
          simp_all
      · cases ka <;> cases kb <;> cases kc <;> by_cases h : oa = ob <;> by_cases h' : ob = oc <;>
          simp_all [beq_eq_false_iff_ne.mpr]
      · by_cases h : ca = cb <;> by_cases h' : cb = cc <;> simp_all
    · have hab' := joinReg_of_eq hab
      rw [joinReg_of_ne hbc, joinReg_top, joinReg_of_ne]
      rw [hab'.1, hab'.2, hab.1, hab.2]
      exact hbc
  · rw [joinReg_of_ne hab, joinReg_comm, joinReg_top]
    by_cases hbc : b.tag = c.tag ∧ b.mapidx = c.mapidx
    · have hbc' := joinReg_of_eq hbc
      rw [joinReg_of_ne]
      rw [hbc'.1, hbc'.2]
      exact hab
    · rw [joinReg_of_ne hbc, joinReg_top]

theorem joinReg_settle : joinReg a.settle b = joinReg a b := by
  rw [← joinReg_self, joinReg_assoc]
  by_cases h : a.tag = b.tag ∧ a.mapidx = b.mapidx
  · -- the join has no leftover offset, so joining once more changes nothing
    have hab := joinReg_of_eq h
    obtain ⟨ta, oa, ka, ma, ca⟩ := a
    obtain ⟨tb, ob, kb, mb, cb⟩ := b
    obtain ⟨rfl, rfl⟩ := h
    cases ka <;> cases kb <;> by_cases ho : oa = ob <;> by_cases hc : ca = cb <;> simp_all [joinReg]
  · rw [joinReg_of_ne h, joinReg_top]

end Join

/-! ## Abstract states -/

namespace AbsState

/-- No register and no slot has a leftover offset. -/
def Settled (x : AbsState) : Prop := (∀ r, (x.reg r).Settled) ∧ ∀ k, (x.slot k).Settled

/-- What is known where a block is entered from one more state. -/
def enter (st x : AbsState) : AbsState := st.joinFrom { x with live := true }

theorem enter_of_live {st x : AbsState} (h : st.live = true) :
    st.enter x = ⟨fun r => joinReg (st.reg r) (x.reg r), fun k => joinReg (st.slot k)
    (x.slot k), true⟩ := by
  simp [enter, joinFrom, h]

theorem enter_of_not_live {st x : AbsState} (h : st.live = false) :
    st.enter x = ⟨x.reg, x.slot, true⟩ := by
  simp [enter, joinFrom, h]

@[simp] theorem enter_live (st x : AbsState) : (st.enter x).live = true := by
  cases h : st.live with
  | true => rw [enter_of_live h]
  | false => rw [enter_of_not_live h]

theorem enter_comm (st x y : AbsState) : (st.enter x).enter y = (st.enter y).enter x := by
  rw [enter_of_live (enter_live st x), enter_of_live (enter_live st y)]
  cases h : st.live with
  | true =>
    rw [enter_of_live h, enter_of_live h]
    simp only [mk.injEq, and_true]
    refine ⟨funext fun r => ?_, funext fun k => ?_⟩
    · rw [joinReg_assoc, joinReg_comm (x.reg r), joinReg_assoc]
    · rw [joinReg_assoc, joinReg_comm (x.slot k), joinReg_assoc]
  | false =>
    rw [enter_of_not_live h, enter_of_not_live h]
    simp only [mk.injEq, and_true]
    exact ⟨funext fun r => joinReg_comm _ _, funext fun k => joinReg_comm _ _⟩

/-- A state that is live forgets that it was entered twice from the same one. -/
theorem enter_enter_of_live {st : AbsState} (x : AbsState) (h : st.live = true) :
    (st.enter x).enter x = st.enter x := by
  rw [enter_of_live (enter_live st x), enter_of_live h]
  simp only [mk.injEq, and_true]
  refine ⟨funext fun r => ?_, funext fun k => ?_⟩
  · rw [joinReg_assoc, joinReg_self, joinReg_comm, joinReg_settle, joinReg_comm]
  · rw [joinReg_assoc, joinReg_self, joinReg_comm, joinReg_settle, joinReg_comm]

theorem enter_enter_of_not_live {st : AbsState} (x : AbsState) (h : st.live = false) :
    (st.enter x).enter x = st.enter x ↔ x.Settled := by
  rw [enter_of_live (enter_live st x), enter_of_not_live h]
  simp only [mk.injEq, and_true, joinReg_self, Settled]
  refine and_congr ⟨fun heq r => ?_, fun hs => funext fun r => ?_⟩
    ⟨fun heq k => ?_, fun hs => funext fun k => ?_⟩
  · exact RegInfo.settle_eq_self.mp (congrFun heq r)
  · exact RegInfo.settle_eq_self.mpr (hs r)
  · exact RegInfo.settle_eq_self.mp (congrFun heq k)
  · exact RegInfo.settle_eq_self.mpr (hs k)

/-- Nor does it show once the block is entered from another state as well. -/
theorem enter_enter_enter (st x y : AbsState) :
    ((st.enter x).enter x).enter y = (st.enter x).enter y := by
  rw [enter_comm (st.enter x) x y, enter_comm st x y, enter_enter_of_live x (enter_live st y)]

end AbsState

theorem joinAll_cons (st x : AbsState) (xs : List AbsState) :
    joinAll st (x :: xs) = joinAll (st.enter x) xs := rfl

theorem joinAll_perm {xs ys : List AbsState} (h : xs.Perm ys) (st : AbsState) :
    joinAll st xs = joinAll st ys :=
  h.foldl_eq' (fun x _ y _ st => AbsState.enter_comm st x y) st

theorem joinAll_twice_iff (st x : AbsState) (xs : List AbsState) :
    joinAll st (x :: x :: xs) = joinAll st (x :: xs) ↔ st.live = true ∨ xs ≠ [] ∨ x.Settled := by
  rw [joinAll_cons, joinAll_cons, joinAll_cons]
  cases h : st.live with
  | true => simp [AbsState.enter_enter_of_live x h]
  | false =>
    cases xs with
    | nil => simpa [joinAll] using AbsState.enter_enter_of_not_live x h
    | cons y ys => simp [joinAll_cons, AbsState.enter_enter_enter]

/-- The join of abstract values is commutative, associative and an upper bound. It is
idempotent on the values without a leftover offset and on no other; so the order in which
a block's predecessors are joined never matters, and a repetition matters exactly where
nothing else is joined and a leftover offset is there to be cleared. -/
theorem join_semilattice_iff (a b c : RegInfo) (st x : AbsState) (xs ys : List AbsState) :
    joinReg a b = joinReg b a ∧
      joinReg (joinReg a b) c = joinReg a (joinReg b c) ∧
      (a ≤ joinReg a b ∧ b ≤ joinReg a b) ∧
      (joinReg a a = a ↔ a.offKnown = true ∨ a.off = 0) ∧
      (xs.Perm ys → joinAll st xs = joinAll st ys) ∧
      (joinAll st (x :: x :: xs) = joinAll st (x :: xs) ↔
        st.live = true ∨ xs ≠ [] ∨ x.Settled) := by
  refine ⟨joinReg_comm a b, joinReg_assoc a b c, ⟨le_joinReg_left a b, le_joinReg_right a b⟩,
    ?_, fun h => joinAll_perm h st, joinAll_twice_iff st x xs⟩
  rw [joinReg_self]
  exact RegInfo.settle_eq_self

/-- `r1 += 4; r1 += r2; if r0 == 0 goto +0; exit`. -/
def leftoverProgram : List Insn :=
  [⟨0x07, 1, 0, 0, 4⟩, ⟨0x0f, 1, 2, 0, 0⟩, ⟨0x15, 0, 0, 0, 0⟩, ⟨0x95, 0, 0, 0, 0⟩]

/-- At the end of the first block of a program that is accepted, `r1` is a value that the
join does not keep; the second block is entered with another one than the first ends with,
because both branches of the jump lead to it. -/
theorem leftoverProgram_counterexample :
    ((translateProgram leftoverProgram).result xdpConfig .init).isSome = true ∧
      ∃ q r, q ∈ programTraces leftoverProgram xdpConfig ∧ r ∈ programTraces
      leftoverProgram xdpConfig ∧
        joinReg (q.exit.reg 1) (q.exit.reg 1) ≠ q.exit.reg 1 ∧
        r.entry.reg 1 = (joinAll (entryStates r.b) [q.exit, q.exit]).reg 1 ∧
        r.entry.reg 1 ≠ (joinAll (entryStates r.b) [q.exit]).reg 1 := by
  refine ⟨by decide +kernel, ?_⟩
  have hlen : (programTraces leftoverProgram xdpConfig).length = 2 := by decide +kernel
  obtain ⟨q, r, htr⟩ := List.length_eq_two.mp hlen
  have hexit : (programTraces leftoverProgram xdpConfig).map (·.exit.reg 1) =
      [⟨.ctx, 4, false, -1, none⟩, ⟨.ctx, 0, false, -1, none⟩] := by decide +kernel
  have hentry : (programTraces leftoverProgram xdpConfig).map (·.entry.reg 1) =
      [pointer .ctx 0, ⟨.ctx, 0, false, -1, none⟩] := by decide +kernel
  have hb : (programTraces leftoverProgram xdpConfig).map (·.b) = [0, 1] := by decide +kernel
  rw [htr] at hexit hentry hb
  simp only [List.map_cons, List.map_nil, List.cons.injEq, and_true] at hexit hentry hb
  have hone : (joinAll (entryStates 1) [q.exit]).reg 1 = q.exit.reg 1 := rfl
  have htwo : (joinAll (entryStates 1) [q.exit, q.exit]).reg 1 =
      joinReg (q.exit.reg 1) (q.exit.reg 1) := rfl
  refine ⟨q, r, by rw [htr]; simp, by rw [htr]; simp, ?_, ?_, ?_⟩
  · rw [hexit.1]; decide
  · rw [hb.2, htwo, hexit.1, hentry.2]; decide
  · rw [hb.2, hone, hexit.1, hentry.2]; decide

end Ect
