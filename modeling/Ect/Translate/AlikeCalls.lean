-- SUMMARY: The map helpers and whole blocks, run for two programs with stack headers numbered differently.
import Ect.Translate.Alike

/-!
# The same calls in two programs

The helpers hand their decisions back as arms, whose operations may name a stack slot, so
their values are the same up to the header of each slot.
-/

namespace Ect

open TransM

structure SameArm (t t' : Translator) (a a' : Arm) : Prop where
  entries : List.Forall₂ (SameEntry t t') a.1 a'.1
  ops : SameOps t t' a.2 a'.2

def SameArms (t t' : Translator) : List Arm → List Arm → Prop := List.Forall₂ (SameArm t t')

theorem SameArm.keeps {t t' u u' : Translator} {a a' : Arm} (h : SameArm t t' a a')
    (hk : t.Grows u) (hk' : t'.Grows u') : SameArm u u' a a' :=
  ⟨h.entries.imp fun _ _ h => h.keeps hk hk', h.ops.keeps hk hk'⟩

theorem SameArms.keeps {t t' u u' : Translator} {as as' : List Arm} (h : SameArms t t' as as')
    (hk : t.Grows u) (hk' : t'.Grows u') : SameArms u u' as as' :=
  h.imp fun _ _ h => h.keeps hk hk'

/-- An arm whose entries name no stack slot, and whose operations are the same. -/
theorem SameArm.of_low {t t' : Translator} {es : List MatchEntry} {ops ops' : List Op}
    (hes : ∀ e ∈ es, LowEntry e) (hops : SameOps t t' ops ops') :
    SameArm t t' (es, ops) (es, ops') :=
  ⟨List.forall₂_same.mpr fun e he => hes e he t t', hops⟩

/-- Setting `r0` to a constant. -/
theorem constOps_same {t t' : Translator} {v : Int} :
    SameOps t t' [constOp (hReg 0) v] [constOp (hReg 0) v] :=
  .cons (.stateless (.const _) (.const _) (.of_low inferInstance)) .nil

section Helpers

variable {w : Twin} {A : Translator → Translator → Prop} {t t' : Translator} {j : Nat}

/-! ## Checks -/

theorem checkMapModelled_runs {mi : MapInfo} (hal : A t t') :
    w.RunsTo A t t' (checkMapModelled (w.pos + j) mi) (checkMapModelled (w.pos' + j) mi)
      fun _ _ a a' => a' = a := by
  unfold checkMapModelled
  split
  · exact (Twin.RunsTo.unsupported hal).bind fun _ _ _ _ hal _ _ _ => .pure hal rfl
  · exact (Twin.RunsTo.unsupported hal).bind fun _ _ _ _ hal _ _ _ => .pure hal rfl
  · exact .pure hal rfl

theorem checkArrayKey_runs {mi : MapInfo} {key : Option Nat} (hal : A t t') :
    w.RunsTo A t t' (checkArrayKey (w.pos + j) mi key) (checkArrayKey (w.pos' + j) mi key)
      fun _ _ a a' => a' = a := by
  unfold checkArrayKey
  split <;>
  · refine .ite (fun _ => ?_) fun _ => .pure hal rfl
    exact (Twin.RunsTo.unsupported hal).bind fun _ _ _ _ hal _ _ _ => .pure hal rfl

/-! ## Keys and slots -/

/-- The same scratch header, or none. -/
def SameLow (_ _ : Translator) (a a' : Option Nat) : Prop := a' = a ∧ ∀ h, a = some h → Low h

theorem readMapKey_runs {kp : RegInfo} {kw : Width} (hal : Twin.Aligned t t') :
    w.Runs t t' (readMapKey (w.pos + j) kp kw) (readMapKey (w.pos' + j) kp kw) SameLow := by
  have hnone : ∀ t₁ t₁' msg, Twin.Aligned t₁ t₁' → w.Runs t₁ t₁'
      (do unsupported (w.pos + j) msg; pure none) (do unsupported (w.pos' + j) msg; pure none)
      SameLow := fun t₁ t₁' msg hal =>
    Alike.then hal fun _ _ _ hal => .pure hal ⟨rfl, by simp⟩
  have hsome : ∀ (k : Fin numTmps) (t₁ t₁' : Translator), Twin.Aligned t₁ t₁' →
      w.Runs t₁ t₁' (pure (some (hTmp k))) (pure (some (hTmp k))) SameLow := fun k _ _ hal =>
    .pure hal ⟨rfl, fun h heq => Option.some.inj heq ▸ inferInstance⟩
  refine fresh_runs hal fun k _ _ hal => .ite (fun _ => .ite (fun _ => hnone _ _ _ hal) fun _ => ?_)
    fun _ => .config (.ite (fun _ => hnone _ _ _ hal) fun _ => ?_)
  · exact withSlot_runs hal (fun _ _ hal => hnone _ _ _ hal) fun _ _ _ _ hal hsame =>
      (Twin.RunsTo.emit hal (.cast (.header hsame) (.of_low inferInstance))).bind
        fun _ _ _ _ hal _ _ _ => hsome k _ _ hal
  · exact fresh_runs hal fun k2 _ _ hal => Alike.then hal fun _ _ _ hal =>
      Alike.then hal fun _ _ _ hal => hsome k _ _ hal

theorem emitSlot_runs {mi : MapInfo} {kp : RegInfo} {st : AbsState} {kw : Width}
    (hal : Twin.Aligned t t') :
    w.Runs t t' (emitSlot (w.pos + j) mi kp st kw) (emitSlot (w.pos' + j) mi kp st kw)
      fun _ _ a a' => a' = a ∧ ∀ p, a = some p → Low p.1 := by
  refine fresh_runs hal fun k _ _ hal => ?_
  cases constKey kp st with
  | some key =>
    exact Alike.then hal fun _ _ _ hal =>
      .pure hal ⟨rfl, fun p heq => Option.some.inj heq ▸ inferInstance⟩
  | none =>
    refine (readMapKey_runs hal).bind fun _ _ a a' hal _ _ ⟨heq, hlow⟩ => ?_
    subst heq
    cases a' with
    | none => exact .pure hal ⟨rfl, by simp⟩
    | some tKey =>
      have := hlow tKey rfl
      exact Alike.then hal fun _ _ _ hal =>
        .pure hal ⟨rfl, fun p heq => Option.some.inj heq ▸ inferInstance⟩

/-- The same scratch headers. -/
def SameLows (_ _ : Translator) (a a' : List Nat) : Prop := a' = a ∧ ∀ h ∈ a, Low h

theorem emitWidened_runs {width : Width} {region tRaw : Nat} [Low tRaw] {offs : List Nat}
    (hal : Twin.Aligned t t') :
    w.Runs t t' (emitWidened (w.pos + j) width region tRaw offs)
      (emitWidened (w.pos' + j) width region tRaw offs) SameLows := by
  induction offs generalizing t t' with
  | nil => exact .pure hal ⟨rfl, by simp⟩
  | cons off offs ih =>
    refine fresh_runs hal fun k _ _ hal => Alike.then hal fun _ _ _ hal =>
      Alike.then hal fun _ _ _ hal => (ih hal).bind fun _ _ a a' hal _ _ ⟨heq, hlow⟩ => ?_
    subst heq
    refine .pure hal ⟨rfl, fun h hh => ?_⟩
    rcases List.mem_cons.mp hh with rfl | hh
    · infer_instance
    · exact hlow h hh

theorem emitSlotHeaders_runs {mr : MapRef} {kw : Width} (hal : Twin.Aligned t t') :
    w.Runs t t' (emitSlotHeaders (w.pos + j) mr kw) (emitSlotHeaders (w.pos' + j) mr kw)
      fun t t' a a' => SameLows t t' a.1 a'.1 ∧ SameLows t t' a.2 a'.2 := by
  refine fresh_runs hal fun k _ _ hal => (emitWidened_runs hal).bind
    fun _ _ a a' hal _ _ hpres => (emitWidened_runs hal).bind fun _ _ b b' hal _ _ htags => ?_
  exact .pure hal ⟨hpres, htags⟩

theorem low_getD {hs : List Nat} (h : ∀ x ∈ hs, Low x) (i : Nat) : Low (hs.getD i 0) := by
  rw [List.getD_eq_getElem?_getD]
  cases hi : hs[i]? with
  | none => exact ⟨by decide⟩
  | some x => exact h x (List.mem_of_getElem? hi)

theorem hitEntries_low {pres tags : List Nat} {tKey i : Nat} (hp : ∀ h ∈ pres, Low h)
    (ht : ∀ h ∈ tags, Low h) (hk : Low tKey) : ∀ e ∈ hitEntries pres tags tKey i, LowEntry e := by
  intro e he
  simp only [hitEntries, List.mem_cons, List.not_mem_nil, or_false] at he
  rcases he with rfl | rfl
  · exact lowEntry_const (low_getD hp i)
  · exact lowEntry_header (low_getD ht i) hk

/-! ## Lookup -/

def SameOptArms (t t' : Translator) : Option (List Arm) → Option (List Arm) → Prop :=
  Option.Rel (SameArms t t')

theorem emitArrayLookup_runs {mi : MapInfo} {kp : RegInfo} {st : AbsState} {kw : Width}
    (hal : Twin.Aligned t t') :
    w.Runs t t' (emitArrayLookup (w.pos + j) mi kp st kw) (emitArrayLookup (w.pos' + j) mi kp st kw)
      SameOptArms := by
  unfold emitArrayLookup
  refine (checkArrayKey_runs hal).bind fun _ _ a a' hal _ _ heq => ?_
  subst heq
  refine .ite (fun _ => .pure hal .none) fun _ => ?_
  refine (emitSlot_runs hal).bind fun _ _ a a' hal _ _ ⟨heq, hlow⟩ => ?_
  subst heq
  cases a' with
  | none => exact .pure hal .none
  | some p =>
    obtain ⟨tSlot, const⟩ := p
    have hslot : Low tSlot := hlow _ rfl
    -- a hit arm that takes the value pointer in `k`, and a miss arm
    have hhit : ∀ (k : Fin numTmps) (cond : MatchEntry) (t t' : Translator), LowEntry cond →
        SameOptArms t t' (some [([cond], [assignOp (hReg 0) (hTmp k)]), ([], [zeroOp (hReg 0)])])
          (some [([cond], [assignOp (hReg 0) (hTmp k)]), ([], [zeroOp (hReg 0)])]) := by
      intro k cond t t' hcond
      have hassign : SameOps t t' [assignOp (hReg 0) (hTmp k)] [assignOp (hReg 0) (hTmp k)] :=
        .cons (.stateless (.header (.of_low inferInstance)) (.const _) (.of_low inferInstance)) .nil
      exact .some (.cons (.of_low (by simpa using hcond) hassign)
        (.cons (.of_low (by simp) constOps_same) .nil))
    refine fresh_runs hal fun k _ _ hal => Alike.then hal fun _ _ _ hal =>
      Alike.then hal fun _ _ _ hal => ?_
    cases const with
    | some key => exact .pure hal (hhit k _ _ _ (lowEntry_const hslot))
    | none =>
      exact fresh_runs hal fun k2 _ _ hal => Alike.then hal fun _ _ _ hal =>
        .pure hal (hhit k _ _ _ (lowEntry_const inferInstance))

theorem emitTaggedLookup_runs {mr : MapRef} {kp : RegInfo} {kw : Width} (hal : Twin.Aligned t t') :
    w.Runs t t' (emitTaggedLookup (w.pos + j) mr kp kw) (emitTaggedLookup (w.pos' + j) mr kp kw)
      SameOptArms := by
  unfold emitTaggedLookup
  refine (readMapKey_runs hal).bind fun _ _ a a' hal _ _ ⟨heq, hkey⟩ => ?_
  subst heq
  cases a' with
  | none => exact .pure hal .none
  | some tKey =>
    refine (emitSlotHeaders_runs hal).bind fun _ _ a a' hal _ _ ⟨⟨hp, hplow⟩, ⟨ht, htlow⟩⟩ => ?_
    obtain ⟨_, _⟩ := a
    obtain ⟨pres, tags⟩ := a'
    dsimp only at hp ht hplow htlow
    subst hp ht
    refine .pure hal (.some (List.rel_append (List.forall₂_map_left_iff.mpr
      (List.forall₂_map_right_iff.mpr (List.forall₂_same.mpr fun i _ => ?_))) ?_))
    · exact .of_low (hitEntries_low hplow htlow (hkey tKey rfl)) constOps_same
    · exact .cons (.of_low (by simp) constOps_same) .nil

/-- What a helper hands back: the same arms, and the same state. -/
def SameCall (t t' : Translator) (a a' : Option (List Arm) × AbsState) : Prop :=
  SameOptArms t t' a.1 a'.1 ∧ a'.2 = a.2

theorem emitMapLookup_runs {st : AbsState} (hst : Twin.Started t t') :
    w.RunsTo Twin.Started t t' (emitMapLookup (w.pos + j) st) (emitMapLookup (w.pos' + j) st)
      SameCall := by
  have hrefuse : ∀ {t t' msg}, Twin.Started t t' → w.RunsTo Twin.Started t t'
      (do unsupported (w.pos + j) msg; pure (none, st))
      (do unsupported (w.pos' + j) msg; pure (none, st)) SameCall := fun hst =>
    (Twin.RunsTo.unsupported hst).bind fun _ _ _ _ hst _ _ _ => .pure hst ⟨.none, rfl⟩
  unfold emitMapLookup
  refine .config ?_
  dsimp only
  cases mapOf w.c.maps (st.reg 1) with
  | none => exact hrefuse hst
  | some mr =>
    refine (checkMapModelled_runs hst).bind fun _ _ a a' hst _ _ heq => ?_
    subst heq
    refine .ite (fun _ => .pure hst ⟨.none, rfl⟩) fun _ => .ite (fun _ => hrefuse hst) fun _ => ?_
    -- whatever the arms are, both calls end alike
    have harms : ∀ {t t' : Translator} {x x' : TransM (Option (List Arm))} {st' : AbsState}
        {k : Option (List Arm) → TransM (Option (List Arm) × AbsState)}, k none = pure (none, st) →
        (∀ arms, k (some arms) = pure (some arms, st')) → w.Runs t t' x x' SameOptArms →
        w.RunsTo Twin.Started t t' (x >>= k) (x' >>= k) SameCall := by
      intro t t' x x' st' k hnone hsome hx
      refine hx.bind fun t t' arms arms' hal _ _ h => ?_
      cases h with
      | none => exact hnone ▸ .pure hal.toStarted ⟨.none, rfl⟩
      | some h =>
        rw [hsome, hsome]
        exact .pure hal.toStarted ⟨.some h, rfl⟩
    refine hst.setTmpNext.bind fun _ _ _ _ hal _ _ _ => Twin.RunsTo.bind (Alike.runs hal)
      fun _ _ _ _ hal _ _ _ => ?_
    exact .ite (fun _ => harms rfl (fun _ => rfl) (emitArrayLookup_runs hal))
      fun _ => harms rfl (fun _ => rfl) (emitTaggedLookup_runs hal)

/-! ## Update -/

section Copy

set_option synthInstance.maxSize 1024

instance {src dst : Nat} {d : Operand} {tSa tDa tB : Nat} {is : List Nat} [LowOperand d] [Low tSa]
    [Low tDa] [Low tB] :
    Alike w (emitCopyBytes src dst d tSa tDa tB is) (emitCopyBytes src dst d tSa tDa tB is) := by
  induction is with
  | nil => unfold emitCopyBytes; infer_instance
  | cons i is ih => unfold emitCopyBytes emitCopyByte; infer_instance

instance {vp : RegInfo} {mr : MapRef} {dst : Operand} [LowOperand dst] :
    Alike w (copyMapValue (w.pos + j) vp mr dst) (copyMapValue (w.pos' + j) vp mr dst) where
  runs hal := by
    unfold copyMapValue
    refine .config (.ite (fun _ => .ite (fun _ => Alike.runs hal) fun _ =>
      .ite (fun _ => Alike.runs hal) fun _ => ?_) fun _ => Alike.runs hal)
    refine withSlot_runs hal (fun _ _ hal => Alike.runs hal) fun _ _ _ _ hal hsame => ?_
    exact (Twin.RunsTo.emit hal (.store (LowOperand.same _ _) (.header hsame))).bind
      fun _ _ _ _ hal _ _ _ => Alike.runs hal

end Copy

def SameOptOps (t t' : Translator) : Option (List Op) → Option (List Op) → Prop :=
  Option.Rel (SameOps t t')

theorem armOps_runs {mr : MapRef} {vp : RegInfo} {kw : Width} {tTag mark i : Nat} [Low tTag]
    {insert : Bool} (hal : Twin.Aligned t t') :
    w.Runs t t' (armOps (w.pos + j) mr vp kw tTag mark insert i)
      (armOps (w.pos' + j) mr vp kw tTag mark insert i) SameOptOps := by
  unfold armOps
  refine Alike.then hal fun _ _ _ hal => (Twin.RunsTo.capture (Alike.runs hal)).bind
    fun _ _ a a' hal _ _ ⟨hok, hops⟩ => ?_
  obtain ⟨ok, ops⟩ := a
  obtain ⟨ok', ops'⟩ := a'
  obtain rfl : ok' = ok := hok
  cases ok' with
  | true => exact .pure hal (.some hops)
  | false => exact .pure hal .none

theorem slotArms_runs {arm arm' : Nat → TransM (Option (List Op))} {entries : Nat → List MatchEntry}
    (harm : ∀ i t t', Twin.Aligned t t' → w.Runs t t' (arm i) (arm' i) SameOptOps)
    (hlow : ∀ i, ∀ e ∈ entries i, LowEntry e) {is : List Nat} (hal : Twin.Aligned t t') :
    w.Runs t t' (slotArms arm entries is) (slotArms arm' entries is) SameOptArms := by
  induction is generalizing t t' with
  | nil => exact .pure hal (.some .nil)
  | cons i is ih =>
    refine (harm i _ _ hal).bind fun _ _ a a' hal _ _ hops => ?_
    cases hops with
    | none => exact .pure hal .none
    | some hops =>
      refine (ih hal).bind fun _ _ b b' hal hg hg' harms => ?_
      cases harms with
      | none => exact .pure hal .none
      | some harms =>
        exact .pure hal (.some (.cons (.of_low (hlow i) (SameOps.keeps hops hg hg')) harms))

theorem get_runs {α : Type} {f f' : Translator → TransM α}
    {S : Translator → Translator → α → α → Prop} (h : w.RunsTo A t t' (f t) (f' t') S) :
    w.RunsTo A t t' (get >>= f) (TransM.get >>= f') S := by
  rcases h with ⟨e, e', g, g'⟩ | ⟨b, t₂, p, b', t₂', p', g, g', hs⟩
  · exact .inl ⟨e, e', by simp only [Bind.bind, TransM.bind, TransM.get, g],
      by simp only [Bind.bind, TransM.bind, TransM.get, g']⟩
  · exact .inr ⟨b, t₂, p, b', t₂', p', by simp only [Bind.bind, TransM.bind, TransM.get, g]; rfl,
      by simp only [Bind.bind, TransM.bind, TransM.get, g']; rfl, hs⟩

theorem emitTaggedUpdate_runs {mr : MapRef} {kp vp : RegInfo} {kw : Width}
    (hal : Twin.Aligned t t') :
    w.Runs t t' (emitTaggedUpdate (w.pos + j) mr kp vp kw)
      (emitTaggedUpdate (w.pos' + j) mr kp vp kw) SameOptArms := by
  unfold emitTaggedUpdate
  refine (readMapKey_runs hal).bind fun _ _ a a' hal _ _ ⟨heq, hkey⟩ => ?_
  subst heq
  cases a' with
  | none => exact .pure hal .none
  | some tKey =>
    refine (emitSlotHeaders_runs hal).bind fun _ _ a a' hal _ _ ⟨⟨hp, hplow⟩, ⟨ht, htlow⟩⟩ => ?_
    obtain ⟨_, _⟩ := a
    obtain ⟨pres, tags⟩ := a'
    dsimp only at hp ht hplow htlow
    subst hp ht
    have hkey : Low tKey := hkey tKey rfl
    refine fresh_runs hal fun kTag _ _ hal => Alike.then hal fun _ _ _ hal =>
      fresh_runs hal fun kRaw _ _ hal => fresh_runs hal fun kFull _ _ hal =>
      Alike.then hal fun _ _ _ hal => Alike.then hal fun _ t₁ t₁' hal => get_runs ?_
    rw [hal.tmpNext]
    refine (slotArms_runs (fun i _ _ hal => armOps_runs hal)
      (fun i => hitEntries_low hplow htlow hkey) hal).bind fun _ _ a a' hal _ _ hover => ?_
    cases hover with
    | none => exact .pure hal .none
    | some hover =>
      have hempty : ∀ i, ∀ e ∈ [cmpEntry (pres.getD i 0) .eq (matchConst 0 .w64)], LowEntry e := by
        intro i e he
        rw [List.mem_singleton.mp he]
        exact lowEntry_const (low_getD hplow i)
      refine (slotArms_runs (fun i _ _ hal => armOps_runs hal) hempty hal).bind
        fun _ _ b b' hal hg hg' hins => ?_
      cases hins with
      | none => exact .pure hal .none
      | some hins =>
        have hfull : ∀ e ∈ [cmpEntry (hTmp kFull) .eq (matchConst 1 .w64)], LowEntry e := by
          intro e he
          rw [List.mem_singleton.mp he]
          exact lowEntry_const inferInstance
        refine .pure hal (.some (List.rel_append (SameArms.keeps hover hg hg')
          (.cons (.of_low hfull constOps_same) (List.rel_append hins
            (.cons (.of_low (by simp) constOps_same) .nil)))))

theorem emitArrayUpdate_runs {mr : MapRef} {kp vp : RegInfo} {st : AbsState} {kw : Width}
    (hal : Twin.Aligned t t') :
    w.Runs t t' (emitArrayUpdate (w.pos + j) mr kp vp st kw)
      (emitArrayUpdate (w.pos' + j) mr kp vp st kw) fun _ _ a a' => a' = a := by
  unfold emitArrayUpdate
  refine (emitSlot_runs hal).bind fun _ _ a a' hal _ _ ⟨heq, hlow⟩ => ?_
  subst heq
  cases a' with
  | none => exact .pure hal rfl
  | some p =>
    obtain ⟨tSlot, _⟩ := p
    have hslot : Low tSlot := hlow _ rfl
    exact fresh_runs hal fun k _ _ hal => Alike.then hal fun _ _ _ hal =>
      Alike.then hal fun _ _ _ hal => Alike.runs hal

theorem emitMapWrite_runs {mr : MapRef} {kp vp : RegInfo} {st : AbsState}
    (hst : Twin.Started t t') :
    w.RunsTo Twin.Started t t' (emitMapWrite (w.pos + j) mr kp vp st)
      (emitMapWrite (w.pos' + j) mr kp vp st) SameCall := by
  unfold emitMapWrite
  refine hst.setTmpNext.bind fun _ _ _ _ hal _ _ _ => Twin.RunsTo.bind (Alike.runs hal)
    fun _ _ _ _ hal _ _ _ => .ite (fun _ => ?_) fun _ => ?_
  · refine (emitArrayUpdate_runs hal).bind fun _ _ a a' hal _ _ heq => ?_
    subst heq
    exact .pure hal.toStarted ⟨.none, rfl⟩
  · refine (emitTaggedUpdate_runs hal).bind fun _ _ a a' hal _ _ harms => ?_
    cases harms with
    | none => exact .pure hal.toStarted ⟨.none, rfl⟩
    | some harms => exact .pure hal.toStarted ⟨.some harms, rfl⟩

theorem emitMapUpdate_runs {st : AbsState} (hst : Twin.Started t t') :
    w.RunsTo Twin.Started t t' (emitMapUpdate (w.pos + j) st) (emitMapUpdate (w.pos' + j) st)
      SameCall := by
  have hrefuse : ∀ {t t' msg}, Twin.Started t t' → w.RunsTo Twin.Started t t'
      (do unsupported (w.pos + j) msg; pure (none, st))
      (do unsupported (w.pos' + j) msg; pure (none, st)) SameCall := fun hst =>
    (Twin.RunsTo.unsupported hst).bind fun _ _ _ _ hst _ _ _ => .pure hst ⟨.none, rfl⟩
  unfold emitMapUpdate
  refine .config ?_
  dsimp only
  cases mapOf w.c.maps (st.reg 1) with
  | none => exact hrefuse hst
  | some mr =>
    refine (checkMapModelled_runs hst).bind fun _ _ a a' hst _ _ heq => ?_
    subst heq
    refine .ite (fun _ => .pure hst ⟨.none, rfl⟩) fun _ => .ite (fun _ => hrefuse hst) fun _ => ?_
    refine .ite (fun _ => (checkArrayKey_runs hst).bind fun _ _ a a' hst _ _ heq => ?_) fun _ =>
      Twin.RunsTo.bind (R := fun _ _ a a' => a' = a) (.pure hst rfl) fun _ _ a a' hst _ _ heq => ?_
    all_goals
      subst heq
      refine .ite (fun _ => .pure hst ⟨.none, rfl⟩) fun _ => .ite (fun _ => hrefuse hst) fun _ =>
        .ite (fun _ => ?_) fun _ => .ite (fun _ => hrefuse hst) fun _ =>
          .ite (fun _ => hrefuse hst) fun _ => emitMapWrite_runs hst
      exact (Twin.RunsTo.emit hst (LowOp.same _ _)).bind fun _ _ _ _ hst _ _ _ =>
        .pure hst ⟨.none, rfl⟩

theorem translateCall_runs {i : Insn} {st : AbsState} (hst : Twin.Started t t') :
    w.RunsTo Twin.Started t t' (translateCall (w.pos + j) i st) (translateCall (w.pos' + j) i st)
      SameCall := by
  have hrefuse : ∀ {t t' msg}, Twin.Started t t' → w.RunsTo Twin.Started t t'
      (do unsupported (w.pos + j) msg; pure (none, st))
      (do unsupported (w.pos' + j) msg; pure (none, st)) SameCall := fun hst =>
    (Twin.RunsTo.unsupported hst).bind fun _ _ _ _ hst _ _ _ => .pure hst ⟨.none, rfl⟩
  exact .ite (fun _ => hrefuse hst) fun _ => .ite (fun _ => emitMapLookup_runs hst) fun _ =>
    .ite (fun _ => emitMapUpdate_runs hst) fun _ => hrefuse hst

end Helpers

end Ect
