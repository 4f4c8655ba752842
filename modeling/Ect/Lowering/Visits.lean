-- SUMMARY: The instructions a translation visits, with what it knows at each, and that an accepted program accepts every one.
import Ect.Lowering.Effects

/-!
# Visits

A translation visits every block once, whether a run reaches it or not. `visits` lists
the instructions with the abstract state and the translator's state at each.
-/

namespace Ect

open TransM

/-- An instruction about to be translated. -/
structure Visit where
  idx : Nat
  st : AbsState
  t : Translator

section Visits

variable (insns : List Insn) (c : Config)

/-- The visits of the straight-line part of a block. -/
def bodyVisits (bodyEnd : Nat) : Nat → Visit → List Visit
  | 0, _ => []
  | fuel + 1, v =>
    if v.idx < bodyEnd then
      v :: match translateOne v.idx insns v.st c v.t with
        | .ok ((k, st), t, _) => bodyVisits bodyEnd fuel ⟨v.idx + k, st, t⟩
        | .error _ => []
    else []

/-- The visit of the terminator, if the block has one. -/
def termVisits (end_ : Nat) (v : Visit) : List Visit :=
  if (insnAt insns (end_ - 1)).endsBlock then
    match translateBody insns (end_ - 1) (end_ - 1 - v.idx) v.idx v.st c v.t with
    | .ok (st, t, _) => [⟨end_ - 1, st, t⟩]
    | .error _ => []
  else []

/-- The visits of the block that starts at `v` and ends before `end_`. -/
def blockVisits (end_ : Nat) (v : Visit) : List Visit :=
  bodyVisits insns c (bodyEnd insns end_) (bodyEnd insns end_ - v.idx) v ++
  termVisits insns c end_ v

def blocksVisits (lead : Nat → Bool) : List Nat → (Nat → AbsState) → Translator → List Visit
  | [], _, _ => []
  | b :: bs, blockIn, t =>
    match translateBlock insns lead b blockIn c t with
    | .error _ => []
    | .ok ((_, blockIn'), t', _) =>
      let starts := blockStarts insns.length lead
      let st := if (blockIn b).live then blockIn b else .init
      blockVisits insns c (blockEnd insns starts b) ⟨starts.getD b 0, st, t⟩ ++
        blocksVisits lead bs blockIn' t'

/-- The visits of a program's translation, in order. -/
def visits : List Visit :=
  match findLeaders insns c .init with
  | .error _ => []
  | .ok (lead, t, _) =>
    blocksVisits insns c lead (List.range (blockStarts insns.length lead).length) entryStates t

end Visits

/-- The instruction of a visit is accepted: as part of the straight line, or as the end
of its block. -/
inductive Visit.Accepted (insns : List Insn) (c : Config) (v : Visit) : Prop where
  | insn {k : Nat} {st : AbsState} {t : Translator} {ops : List Op}
      (hends : (insnAt insns v.idx).endsBlock = false)
      (h : (translateOne v.idx insns v.st).Accepts c v.t (k, st) t ops)
  | term {lead : Nat → Bool} {flow : Flow} {st : AbsState} {t : Translator} {ops : List Op}
      (hends : (insnAt insns v.idx).endsBlock = true)
      (h : TermLowered insns lead c (v.idx + 1) v.st v.t flow st t ops)

section Accepted

variable {insns : List Insn} {lead : Nat → Bool} {c : Config}

/-- An accepted straight line accepts the instruction of every visit. -/
theorem bodyVisits_accepts {e fuel : Nat} {v w : Visit} {st' : AbsState} {t' : Translator}
    {ops : List Op} (h : (translateBody insns e fuel v.idx v.st).Accepts c v.t st' t' ops)
    (hw : w ∈ bodyVisits insns c e fuel v) :
    w.idx < e ∧ ∃ r t ops, (translateOne w.idx insns w.st).Accepts c w.t r t ops := by
  induction fuel generalizing v ops with
  | zero => simp [bodyVisits] at hw
  | succ fuel ih =>
    unfold bodyVisits at hw
    split at hw
    · rename_i hlt
      simp only [translateBody, if_pos hlt] at h
      obtain ⟨⟨k, st₁⟩, t₁, o₁, hone, o₂, hrest, rfl⟩ := accepts_bind.mp h
      have hone' : translateOne v.idx insns v.st c v.t = .ok ((k, st₁), t₁, ⟨o₁, []⟩) := hone
      rw [hone'] at hw
      rcases List.mem_cons.mp hw with rfl | hw
      · exact ⟨hlt, _, _, _, hone⟩
      · exact ih (v := ⟨v.idx + k, st₁, t₁⟩) hrest hw
    · cases hw

theorem blockVisits_accepted {b start end_ : Nat} {st st' : AbsState} {t t' : Translator}
    {flow : Flow} {ops : List Op} {w : Visit} (hb : IsBlock insns lead b start end_)
    (h : BlockLowered insns lead c start end_ st t t' st' flow ops)
    (hw : w ∈ blockVisits insns c end_ ⟨start, st, t⟩) : w.Accepted insns c := by
  obtain ⟨st₁, t₁, o₁, o₂, hbody, hterm, _⟩ := h.lowered
  have hend := hb.end_le
  have hstart := hb.start_lt
  rcases List.mem_append.mp hw with hw | hw
  · obtain ⟨hlt, ⟨k, st₂⟩, t₂, o, hone⟩ := bodyVisits_accepts (v := ⟨start, st, t⟩) hbody hw
    have hidx : w.idx < insns.length := by
      unfold bodyEnd at hlt
      split at hlt <;> omega
    exact .insn (translateOne_accepts hone hidx).1 hone
  · unfold termVisits at hw
    split at hw
    · rename_i hends
      have hbe : bodyEnd insns end_ = end_ - 1 := if_pos hends
      rw [hbe] at hbody
      have hbody' : translateBody insns (end_ - 1) (end_ - 1 - start) start st c t =
        .ok (st₁, t₁, ⟨o₁, []⟩) := hbody
      dsimp only at hw
      rw [hbody'] at hw
      rw [List.mem_singleton.mp hw]
      have hpos : end_ - 1 + 1 = end_ := by omega
      refine @Visit.Accepted.term _ _ _ lead flow st' t' o₂ hends ?_
      rw [show (⟨end_ - 1, st₁, t₁⟩ : Visit).idx + 1 = end_ from hpos]
      exact translateTerm_accepts hterm
    · cases hw

theorem blocksVisits_accepted {m b : Nat} (hm : b + m = (blockStarts insns.length lead).length)
    {blockIn : Nat → AbsState} {t t' : Translator} {mods : List (List Rule)} {ops : List Op}
    (h : (translateBlocks insns lead (List.range' b m) blockIn).Accepts c t mods t' ops) {w : Visit}
    (hw : w ∈ blocksVisits insns c lead (List.range' b m) blockIn t) : w.Accepted insns c := by
  induction m generalizing b blockIn t t' mods ops with
  | zero => simp [blocksVisits] at hw
  | succ m ih =>
    rw [List.range'_succ] at h hw
    unfold translateBlocks at h
    obtain ⟨⟨bmods, blockIn'⟩, t₁, o₁, hblock, _, h₁, rfl⟩ := accepts_bind.mp h
    obtain ⟨rest, t₂, o₂, hrest, _, h₂, rfl⟩ := accepts_bind.mp h₁
    obtain ⟨start, end_, hb⟩ := @isBlock insns lead b (by omega)
    have hblock' : translateBlock insns lead b blockIn c t =
        .ok ((bmods, blockIn'), t₁, ⟨o₁, []⟩) := hblock
    obtain ⟨_, st', flow, o, hlow, _, _⟩ := translateBlock_accepts hb hblock
    have hstart : (blockStarts insns.length lead).getD b 0 = start := by
      simp [List.getD, hb.start_eq]
    simp only [blocksVisits, hblock', hstart, hb.end_eq] at hw
    rcases List.mem_append.mp hw with hw | hw
    · exact blockVisits_accepted hb hlow hw
    · exact ih (by omega) hrest hw

/-- An accepted program accepts every instruction its translation visits. -/
theorem visits_accepted {t' : Translator} {mods : List (List Rule)} {ops : List Op}
    (h : (translateProgram insns).Accepts c .init mods t' ops) {v : Visit}
    (hv : v ∈ visits insns c) : v.Accepted insns c := by
  unfold translateProgram at h
  obtain ⟨lead, t₀, o₀, hfind, _, h₁, rfl⟩ := accepts_bind.mp h
  obtain ⟨rest, t₁, o₁, hblocks, _, h₂, rfl⟩ := accepts_bind.mp h₁
  have hfind' : findLeaders insns c .init = .ok (lead, t₀, ⟨o₀, []⟩) := hfind
  simp only [visits, hfind', List.range_eq_range'] at hv hblocks
  exact blocksVisits_accepted (by simp) hblocks hv

end Accepted

end Ect
