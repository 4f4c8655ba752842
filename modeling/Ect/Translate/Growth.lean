-- SUMMARY: The translator's stack-header table only grows, and gives distinct slots distinct headers.
import Ect.Translate.Laws

/-!
# The stack-header table

Every method of the translator keeps the headers already handed out to stack
slots, so a header read off the table at one instruction is still that slot's
header at every later one. `TransM.Grows` is that property of a method, and a law.
-/

namespace Ect

open TransM

/-- Distinct slots have distinct headers, handed out in order from `hStackBase`. -/
structure Translator.WF (t : Translator) : Prop where
  base : hStackBase ≤ t.nextStackHdr
  range : ∀ {k h}, t.stackHdrOf k = some h → hStackBase ≤ h ∧ h < t.nextStackHdr
  inj : ∀ {k k' h}, t.stackHdrOf k = some h → t.stackHdrOf k' = some h → k = k'

theorem Translator.init_wf : Translator.init.WF := ⟨le_refl _, by simp [init], by simp [init]⟩

/-- `t'` has the headers of `t`, and possibly more. -/
structure Translator.Grows (t t' : Translator) : Prop where
  keeps : ∀ {k h}, t.stackHdrOf k = some h → t'.stackHdrOf k = some h
  wf : t.WF → t'.WF

namespace Translator.Grows

theorem refl (t : Translator) : t.Grows t := ⟨id, id⟩

theorem trans {t₁ t₂ t₃ : Translator} (h₁ : t₁.Grows t₂) (h₂ : t₂.Grows t₃) : t₁.Grows t₃ :=
  ⟨fun h => h₂.keeps (h₁.keeps h), fun h => h₂.wf (h₁.wf h)⟩

/-- Updates that leave the table alone. -/
theorem of_eq {t t' : Translator} (h : t'.stackHdrOf = t.stackHdrOf)
    (hn : t'.nextStackHdr = t.nextStackHdr) : t.Grows t' := by
  refine ⟨fun hk => by rw [h]; exact hk, fun hwf => ⟨?_, ?_, ?_⟩⟩
  · rw [hn]; exact hwf.base
  · intro k h' hk; rw [hn]; rw [h] at hk; exact hwf.range hk
  · intro k k' h' hk hk'; rw [h] at hk hk'; exact hwf.inj hk hk'

end Translator.Grows

/-- The header a slot is accessed through: its own, or the next one if it has none yet. -/
def Translator.slotHdr (t : Translator) (slot : Nat) : Nat :=
  (t.stackHdrOf slot).getD t.nextStackHdr

namespace TransM

variable {α β : Type}

/-- Every accepted run of the method keeps the table. A class, so that the property of
a method is found from those of the methods it calls. -/
class Grows (m : TransM α) : Prop where
  grows : ∀ {c t a t' ops}, m.Accepts c t a t' ops → t.Grows t'

/-- An accepted header request returns the slot's header, or 0 outside the frame. -/
theorem stackHeader_accepts {c : Config} {t t' : Translator} {slot : Int} {h : Nat} {ops : List Op}
    (hacc : (stackHeader slot).Accepts c t h t' ops) :
    ops = [] ∧ t.Grows t' ∧ t'.tmpNext = t.tmpNext ∧
      ((slot < 0 ∨ (bpfStackSize : Int) < slot) ∧ h = 0 ∨
        0 ≤ slot ∧ slot ≤ bpfStackSize ∧ t'.stackHdrOf slot.toNat = some h) := by
  unfold stackHeader at hacc
  obtain ⟨_, _, _, hget, _, hrest, rfl⟩ := accepts_bind.mp hacc
  obtain ⟨rfl, rfl, rfl⟩ := accepts_get.mp hget
  split at hrest
  · rename_i hout
    obtain ⟨rfl, rfl, rfl⟩ := accepts_pure.mp hrest
    exact ⟨rfl, .refl _, rfl, .inl ⟨by omega, rfl⟩⟩
  · rename_i hin
    split at hrest
    · rename_i h' hsome
      obtain ⟨rfl, rfl, rfl⟩ := accepts_pure.mp hrest
      exact ⟨rfl, .refl _, rfl, .inr ⟨by omega, by omega, hsome⟩⟩
    · rename_i hnone
      obtain ⟨_, _, _, hmod, _, hret, rfl⟩ := accepts_bind.mp hrest
      obtain ⟨rfl, rfl⟩ := accepts_modify.mp hmod
      obtain ⟨rfl, rfl, rfl⟩ := accepts_pure.mp hret
      refine ⟨rfl, ⟨?_, ?_⟩, rfl, .inr ⟨by omega, by omega, by simp⟩⟩
      · intro k h hk
        have hne : k ≠ slot.toNat := by rintro rfl; simp [hnone] at hk
        simpa [hne] using hk
      · intro hwf
        have hbase := hwf.base
        refine ⟨Nat.le_succ_of_le hbase, ?_, ?_⟩
        · intro k h hk
          dsimp only at hk ⊢
          split at hk
          · simp only [Option.some.injEq] at hk; omega
          · have := hwf.range hk; omega
        · intro k k' h hk hk'
          dsimp only at hk hk'
          split at hk <;> split at hk'
          · omega
          · simp only [Option.some.injEq] at hk
            have := hwf.range hk'; omega
          · simp only [Option.some.injEq] at hk'
            have := hwf.range hk; omega
          · exact hwf.inj hk hk'

theorem stackHeader_slotHdr {c : Config} {t t' : Translator} {slot : Int} {h : Nat} {ops : List Op}
    (hacc : (stackHeader slot).Accepts c t h t' ops) (hlo : 0 ≤ slot) (hhi : slot ≤ bpfStackSize) :
    h = t.slotHdr slot.toNat := by
  unfold stackHeader at hacc
  obtain ⟨_, _, _, hget, _, hrest, rfl⟩ := accepts_bind.mp hacc
  obtain ⟨rfl, rfl, rfl⟩ := accepts_get.mp hget
  rw [if_neg (by omega)] at hrest
  split at hrest
  · rename_i hsome
    obtain ⟨rfl, _⟩ := accepts_pure.mp hrest
    rw [Translator.slotHdr, hsome, Option.getD_some]
  · rename_i hnone
    obtain ⟨_, _, _, hmod, _, hret, _⟩ := accepts_bind.mp hrest
    obtain ⟨rfl, _⟩ := accepts_pure.mp hret
    rw [Translator.slotHdr, hnone, Option.getD_none]

theorem stackHeader_returns (c : Config) (t : Translator) (slot : Int) :
    ∃ h t', (stackHeader slot).Accepts c t h t' [] := by
  by_cases hout : slot < 0 ∨ slot > bpfStackSize
  · exact ⟨_, _, by
      simp only [Accepts, stackHeader, Bind.bind, TransM.bind, TransM.get, if_pos hout]; rfl⟩
  · cases hk : t.stackHdrOf slot.toNat with
    | some _ => exact ⟨_, _, by
        simp only [Accepts, stackHeader, Bind.bind, TransM.bind, TransM.get, if_neg hout, hk]; rfl⟩
    | none => exact ⟨_, _, by
        simp only [Accepts, stackHeader, Bind.bind, TransM.bind, TransM.get, if_neg hout, hk]; rfl⟩

/-- The law that runs keep the table, whether or not they report something. -/
def growth : Law where
  Holds m := ∀ c t a t' o, m c t = .ok (a, t', o) → t.Grows t'
  pure a := by
    rintro c t _ _ _ ⟨⟩
    exact .refl _
  bind hx hf := by
    intro c t b t' o h
    obtain ⟨a, t₁, _, _, h₁, h₂, _⟩ := ok_bind h
    exact (hx _ _ _ _ _ h₁).trans (hf a _ _ _ _ _ h₂)
  capture hx := by
    intro c t b t' o h
    obtain ⟨_, h, _⟩ := ok_capture h
    exact hx _ _ _ _ _ h
  config := by
    rintro c t _ _ _ ⟨⟩
    exact .refl _
  get := by
    rintro c t _ _ _ ⟨⟩
    exact .refl _
  emit op := by
    rintro c t _ _ _ ⟨⟩
    exact .refl _
  unsupported idx msg := by
    rintro c t _ _ _ ⟨⟩
    exact .refl _
  freshTmp idx := by
    intro c t b t' o h
    obtain ⟨_, _, _, _, ⟨⟩, h, _⟩ := ok_bind h
    split at h
    · obtain ⟨_, _, _, _, ⟨⟩, h, _⟩ := ok_bind h
      obtain ⟨_, _, _, _, ⟨⟩, ⟨⟩, _⟩ := ok_bind h
      exact .of_eq rfl rfl
    · obtain ⟨_, _, _, _, ⟨⟩, ⟨⟩, _⟩ := ok_bind h
      exact .of_eq rfl rfl
  setTmpNext k := by
    rintro c t _ _ _ ⟨⟩
    exact .of_eq rfl rfl
  stackHeader slot := by
    intro c t b t' o h
    obtain ⟨h', t₁, hacc⟩ := stackHeader_returns c t slot
    cases h.symm.trans hacc
    exact (stackHeader_accepts hacc).2.1

instance : growth.AllowsRaise where
  raise _ := by rintro _ _ _ _ _ ⟨⟩

instance : growth.AllowsCount where
  countMapSite m := by
    rintro c t _ _ _ ⟨⟩
    exact .of_eq rfl rfl

/-- Every run that returns keeps the table. -/
theorem grows_of_ok {m : TransM α} [hm : Obeys growth m] {c : Config} {t t' : Translator} {a : α}
    {o : Out} (h : m c t = .ok (a, t', o)) : t.Grows t' := hm.holds _ _ _ _ _ h

/-- Every method of the translator keeps the table. -/
instance {m : TransM α} [Obeys growth m] : Grows m where
  grows h := Obeys.holds (L := growth) (m := m) _ _ _ _ _ h

end TransM

end Ect
