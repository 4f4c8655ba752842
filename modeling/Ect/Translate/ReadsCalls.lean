-- SUMMARY: The registers that conditions and the map helpers read.
import Ect.Translate.Reads

/-!
# Registers that jumps and calls read

A conditional jump reads the registers it mentions. A map helper reads the key through `r2`
and, where the value to store is in a region, the value through `r3`, which then holds a
pointer; what its arms read are scratch headers.
-/

namespace Ect

open TransM

section Conditions

variable {S : Nat → Prop} {idx : Nat} {i : Insn}

/-! ## Conditions -/

/-- The entry, if there is one, reads registers of the set alone. -/
def AllowedCond (S : Nat → Prop) (p : Option MatchEntry × Bool) : Prop := ∀ e, p.1 =
    some e → AllowedEntry S e

theorem AllowedCond.some {e : MatchEntry} {swap : Bool} (h : AllowedEntry S e) :
    AllowedCond S (some e, swap) := by
  rintro e' ⟨⟩
  exact h

theorem emitJset_reads {is32 : Bool} {lhs : Nat} [Allowed S lhs]
    (hsrc : i.isImm = false → S i.src) :
    ReadsIn S (emitJset idx i is32 lhs) (AllowedCond S) := by
  have hret : ∀ (k : Nat) (w : Width),
      ReadsIn S (pure (some (cmpEntry (hTmp k) .eq (matchConst 0 w)), true)) (AllowedCond S) :=
    fun k w => .pure (.some (allowedEntry_const inferInstance))
  refine fresh_reads fun k => .ite
    (fun _ => fresh_reads fun k2 => Confined.then inferInstance fun _ =>
    .ite (fun _ => Confined.then inferInstance fun _ => hret k _) fun himm => ?_) fun _ =>
      .ite (fun _ => Confined.then inferInstance fun _ => hret k _) fun himm => ?_
  · have := Allowed.of_reg (hsrc (by simpa using himm))
    exact fresh_reads fun k3 => Confined.then inferInstance fun _ =>
      Confined.then inferInstance fun _ => hret k _
  · have := Allowed.of_reg (hsrc (by simpa using himm))
    exact Confined.then inferInstance fun _ => hret k _

theorem side_reads {α : Type} {is32 signed : Bool} {reg : Nat} [Allowed S reg] {f : Nat → TransM α}
    {Q : α → Prop} (h : ∀ k, ReadsIn S (f (hTmp k)) Q) :
    ReadsIn S (emitSide idx is32 signed reg >>= f) Q := by
  have hside : ReadsIn S (emitSide idx is32 signed reg) fun a => ∃ k, a = hTmp k := by
    have hret : ∀ k, ReadsIn S (do
        if signed then
          binop .xor (if is32 then .w32 else .w64) (hdr (hTmp k))
            (konst (if is32 then 0x80000000 else 0x8000000000000000)) (hTmp k)
        else pure ()
        pure (hTmp k)) fun a => ∃ k, a = hTmp k := fun k =>
      .ite (fun _ => Confined.then inferInstance fun _ => .pure ⟨k, rfl⟩) fun _ => .pure ⟨k, rfl⟩
    exact fresh_reads fun k => .ite (fun _ => Confined.then inferInstance fun _ => hret k)
      fun _ => Confined.then inferInstance fun _ => hret k
  refine hside.bind ?_
  rintro _ ⟨k, rfl⟩
  exact h k

theorem emitSides_reads {is32 signed : Bool} {lhs : Nat} [hl : Allowed S lhs]
    (hsrc : i.isImm = false → S i.src) :
    ReadsIn S (emitSides idx i is32 signed lhs) fun p =>
      ∀ cmp, AllowedEntry S (cmpEntry p.1 cmp p.2) := by
  refine .ite (fun _ => side_reads fun k => .ite (fun _ => ?_) fun himm => ?_) fun _ => ?_
  · exact .pure fun _ => allowedEntry_const inferInstance
  · have := Allowed.of_reg (hsrc (by simpa using himm))
    exact side_reads fun k2 => .pure fun _ => allowedEntry_header inferInstance inferInstance
  · refine .pure fun _ => ?_
    dsimp only
    split
    · exact allowedEntry_const hl
    · rename_i himm
      exact allowedEntry_header hl (.of_reg (hsrc (by simpa using himm)))

theorem emitCondition_reads (hdst : S i.dst) (hsrc : i.isImm = false → S i.src) :
    ReadsIn S (emitCondition idx i) (AllowedCond S) := by
  have := Allowed.of_reg hdst
  refine Confined.then inferInstance fun _ => .ite (fun _ => emitJset_reads hsrc) fun _ =>
    (emitSides_reads hsrc).bind fun p hp => ?_
  cases i.jmpOp.table with
  | none => exact Confined.then inferInstance fun _ => .pure (by rintro _ ⟨⟩)
  | some q => exact .pure (.some (hp q.1))

end Conditions

section Helpers

set_option synthInstance.maxSize 1024

variable {S : Nat → Prop} {idx : Nat} {st : AbsState}

/-! ## Keys and slots -/

instance {mi : MapInfo} : Confined S (checkMapModelled idx mi) := by
  unfold checkMapModelled
  split <;> infer_instance

instance {mi : MapInfo} {key : Option Nat} : Confined S (checkArrayKey idx mi key) := by
  unfold checkArrayKey
  split <;> infer_instance

theorem readMapKey_reads {kp : RegInfo} {kw : Width} (h2 : S 2) :
    ReadsIn S (readMapKey idx kp kw) fun a => ∀ h, a = some h → Allowed S h := by
  have := Allowed.of_reg h2
  have hnone : ∀ msg, ReadsIn S (do unsupported idx msg; pure none)
      fun a : Option Nat => ∀ h, a = some h → Allowed S h := fun _ =>
    Confined.then inferInstance fun _ => .pure (by simp)
  have hsome : ∀ k, ReadsIn S (pure (some (hTmp k))) fun a => ∀ h, a = some h →
    Allowed S h := fun k =>
    .pure (by rintro _ ⟨⟩; infer_instance)
  refine fresh_reads fun k => .ite (fun _ => .ite (fun _ => hnone _) fun _ =>
    stackHeader_reads.bind fun sh hsh => .ite (fun _ => hnone _) fun _ =>
      Confined.then inferInstance fun _ => hsome k) fun _ => ?_
  exact Confined.then inferInstance fun c => .ite (fun _ => hnone _) fun _ => fresh_reads fun k' =>
    Confined.then inferInstance fun _ => Confined.then inferInstance fun _ => hsome k

theorem emitSlot_reads {mi : MapInfo} {kp : RegInfo} {kw : Width} (h2 : S 2) :
    ReadsIn S (emitSlot idx mi kp st kw) fun a => ∀ p, a = some p → Allowed S p.1 := by
  refine fresh_reads fun k => ?_
  cases constKey kp st with
  | some key => exact Confined.then inferInstance fun _ => .pure (by rintro _ ⟨⟩; infer_instance)
  | none =>
    refine (readMapKey_reads h2).bind fun a ha => ?_
    cases a with
    | none => exact .pure (by simp)
    | some tKey =>
      have := ha tKey rfl
      exact Confined.then inferInstance fun _ => .pure (by rintro _ ⟨⟩; infer_instance)

theorem emitWidened_reads {w : Width} {region tRaw : Nat} [Allowed S tRaw] {offs : List Nat} :
    ReadsIn S (emitWidened idx w region tRaw offs) fun hs => ∀ h ∈ hs, Allowed S h := by
  induction offs with
  | nil => exact .pure (by simp)
  | cons off offs ih =>
    refine fresh_reads fun k => Confined.then inferInstance fun _ => Confined.then
      inferInstance fun _ =>
      ih.bind fun hs hhs => .pure ?_
    intro h hh
    rcases List.mem_cons.mp hh with rfl | hh
    · infer_instance
    · exact hhs h hh

theorem emitSlotHeaders_reads {mr : MapRef} {kw : Width} :
    ReadsIn S (emitSlotHeaders idx mr kw) fun p =>
      (∀ h ∈ p.1, Allowed S h) ∧ ∀ h ∈ p.2, Allowed S h :=
  fresh_reads fun _ => emitWidened_reads.bind fun _ hpres => emitWidened_reads.bind
    fun _ htags => .pure ⟨hpres, htags⟩

theorem allowed_getD {hs : List Nat} (h : ∀ x ∈ hs, Allowed S x) (i : Nat) :
    Allowed S (hs.getD i 0) := by
  rw [List.getD_eq_getElem?_getD]
  cases hi : hs[i]? with
  | none => exact .of_stack (.inl rfl)
  | some x => exact h x (List.mem_of_getElem? hi)

theorem hitEntries_allowed {pres tags : List Nat} {tKey i : Nat} (hp : ∀ h ∈ pres, Allowed S h)
    (ht : ∀ h ∈ tags, Allowed S h) (hk : Allowed S tKey) :
    ∀ e ∈ hitEntries pres tags tKey i, AllowedEntry S e := by
  intro e he
  simp only [hitEntries, List.mem_cons, List.not_mem_nil, or_false] at he
  rcases he with rfl | rfl
  · exact allowedEntry_const (allowed_getD hp i)
  · exact allowedEntry_header (allowed_getD ht i) hk

/-! ## Lookup -/

/-- The arms read registers of the set alone, in their entries and in their operations. -/
def AllowedArms (S : Nat → Prop) (arms : Option (List Arm)) : Prop :=
  ∀ as, arms = some as → ∀ a ∈ as, (∀ e ∈ a.1, AllowedEntry S e) ∧ ∀ op ∈ a.2, AllowedOp S op

theorem AllowedArms.none : AllowedArms S none := by rintro _ ⟨⟩

theorem constOp_allowed {v : Int} {target : Nat} : ∀ op ∈ [constOp target v], AllowedOp S op := by
  intro op hop
  obtain rfl := List.mem_singleton.mp hop
  unfold constOp
  infer_instance

/-- An arm that always applies and sets a register to a constant. -/
theorem default_allowed {v : Int} {target : Nat} :
    (∀ e ∈ ([] : List MatchEntry), AllowedEntry S e) ∧ ∀ op ∈ [constOp target v], AllowedOp S op :=
  ⟨by simp, constOp_allowed⟩

theorem emitArrayLookup_reads {mi : MapInfo} {kp : RegInfo} {kw : Width} (h2 : S 2) :
    ReadsIn S (emitArrayLookup idx mi kp st kw) (AllowedArms S) := by
  refine Confined.then inferInstance fun _ => .ite (fun _ => .pure .none) fun _ =>
    (emitSlot_reads h2).bind fun a ha => ?_
  cases a with
  | none => exact .pure .none
  | some p =>
    obtain ⟨tSlot, const⟩ := p
    have hslot : Allowed S tSlot := ha _ rfl
    have hhit : ∀ (k : Nat) (cond : MatchEntry), AllowedEntry S cond → AllowedArms S
        (some [([cond], [assignOp (hReg 0) (hTmp k)]), ([], [zeroOp (hReg 0)])]) := by
      rintro k cond hcond _ ⟨⟩ a ha
      rcases List.mem_pair.mp ha with rfl | rfl
      · refine ⟨by simpa using hcond, fun op hop => ?_⟩
        obtain rfl := List.mem_singleton.mp hop
        unfold assignOp
        infer_instance
      · exact default_allowed
    refine fresh_reads fun k => Confined.then inferInstance fun _ => Confined.then
      inferInstance fun _ => ?_
    cases const with
    | some key => exact .pure (hhit k _ (allowedEntry_const hslot))
    | none =>
      exact fresh_reads fun k2 => Confined.then inferInstance fun _ =>
        .pure (hhit k _ (allowedEntry_const inferInstance))

theorem emitTaggedLookup_reads {mr : MapRef} {kp : RegInfo} {kw : Width} (h2 : S 2) :
    ReadsIn S (emitTaggedLookup idx mr kp kw) (AllowedArms S) := by
  refine (readMapKey_reads h2).bind fun a ha => ?_
  cases a with
  | none => exact .pure .none
  | some tKey =>
    refine emitSlotHeaders_reads.bind fun p hp => .pure ?_
    rintro _ ⟨⟩ a hmem
    rcases List.mem_append.mp hmem with hmem | hmem
    · obtain ⟨i, _, rfl⟩ := List.mem_map.mp hmem
      exact ⟨hitEntries_allowed hp.1 hp.2 (ha tKey rfl), constOp_allowed⟩
    · obtain rfl := List.mem_singleton.mp hmem
      exact default_allowed

/-- What a helper hands back. -/
def AllowedCall (S : Nat → Prop) (p : Option (List Arm) × AbsState) : Prop :=
  AllowedArms S p.1 ∧ TagsSeen S p.2

theorem refuse_reads {msg : String} (hst : TagsSeen S st) :
    ReadsIn S (do unsupported idx msg; pure ((none : Option (List Arm)), st)) (AllowedCall S) :=
  Confined.then inferInstance fun _ => .pure ⟨.none, hst⟩

theorem emitMapLookup_reads (hst : TagsSeen S st) (h0 : S 0) (h2 : S 2) :
    ReadsIn S (emitMapLookup idx st) (AllowedCall S) := by
  refine Confined.then inferInstance fun c => ?_
  dsimp only
  cases mapOf c.maps (st.reg 1) with
  | none => exact refuse_reads hst
  | some mr =>
    have hret : ∀ (k : Option (List Arm) → TransM (Option (List Arm) × AbsState)),
        k none = pure (none, st) → (∀ arms, k (some arms) =
          pure (some arms, (st.setReg 0 (mapPointer .mapval 0 mr.m)).clobber)) →
        ∀ arms, AllowedArms S arms → ReadsIn S (k arms) (AllowedCall S) := by
      intro k hnone hsome arms harms
      cases arms with
      | none => exact hnone ▸ .pure ⟨.none, hst⟩
      | some arms =>
        rw [hsome]
        exact .pure ⟨harms, (hst.setReg (.inl h0)).clobber⟩
    refine Confined.then inferInstance fun _ => .ite (fun _ => .pure ⟨.none, hst⟩) fun _ =>
      .ite (fun _ => refuse_reads hst) fun _ => Confined.then inferInstance fun _ =>
        Confined.then inferInstance fun _ => ?_
    exact .ite (fun _ => (emitArrayLookup_reads h2).bind (hret _ rfl fun _ => rfl))
      fun _ => (emitTaggedLookup_reads h2).bind (hret _ rfl fun _ => rfl)

/-! ## Update -/

instance {srcRegion dstRegion tSa tDa tB : Nat} {dst : Operand} {is : List Nat}
    [Allowed S (hReg 3)] [AllowedOperand S dst] [Allowed S tSa] [Allowed S tDa] [Allowed S tB] :
    Confined S (emitCopyBytes srcRegion dstRegion dst tSa tDa tB is) := by
  induction is with
  | nil => unfold emitCopyBytes; infer_instance
  | cons i is ih => unfold emitCopyBytes emitCopyByte; infer_instance

/-- A plain integer leads to no region. -/
theorem tag_of_regionOf {maps : List MapInfo} {v : RegInfo} (h : regionOf maps v ≠ regionNone) :
    v.tag ≠ .scalar := by
  intro htag
  simp [regionOf, htag] at h

/-- A copy reads `r3` only where it leads to a region, and holds a pointer then. -/
theorem copyMapValue_reads {vp : RegInfo} {mr : MapRef} {dst : Operand} [AllowedOperand S dst]
    (h3 : vp.tag ≠ .scalar → S 3) : Confined S (copyMapValue idx vp mr dst) := by
  have hret : ∀ b : Bool, ReadsIn S (pure b) fun _ => True := fun _ => .pure trivial
  have hfalse : ∀ msg, ReadsIn S (do unsupported idx msg; pure false) fun _ => True := fun _ =>
    Confined.then inferInstance fun _ => hret _
  constructor
  refine Confined.then inferInstance fun c => .ite (fun _ => ?_) fun _ =>
    .ite (fun _ => hfalse _) fun hregion => ?_
  · refine .ite (fun _ => hfalse _) fun _ => .ite (fun _ => hfalse _) fun _ =>
      stackHeader_reads.bind fun sh hsh => .ite (fun _ => hfalse _) fun _ => ?_
    exact Confined.then inferInstance fun _ => hret _
  · have : Allowed S (hReg 3) := .of_reg (h3 (tag_of_regionOf hregion))
    refine .ite (fun _ => fresh_reads fun k => Confined.then inferInstance fun _ =>
      Confined.then inferInstance fun _ => hret _) fun _ => .ite (fun _ => hfalse _) fun _ => ?_
    exact fresh_reads fun _ => fresh_reads fun _ => fresh_reads fun _ =>
      Confined.then inferInstance fun _ => hret _

/-- The operations, if there are any, read registers of the set alone. -/
def AllowedOps (S : Nat → Prop) (r : Option (List Op)) : Prop :=
  ∀ ops, r = some ops → ∀ op ∈ ops, AllowedOp S op

theorem armOps_reads {mr : MapRef} {vp : RegInfo} {kw : Width} {tTag mark i : Nat} {insert : Bool}
    (h3 : vp.tag ≠ .scalar → S 3) (htag : Allowed S tTag) :
    ReadsIn S (armOps idx mr vp kw tTag mark insert i) (AllowedOps S) := by
  have hcopy : Confined S (copyMapValue idx vp mr (konstN (mr.mi.valueOff i))) :=
    copyMapValue_reads h3
  have hrest : ReadsIn S (do
      if (← copyMapValue idx vp mr (konstN (mr.mi.valueOff i))) then do
        set_ (hReg 0) 0
        pure true
      else pure false) fun _ => True :=
    hcopy.then fun _ => .ite (fun _ => Confined.then inferInstance fun _ => .pure trivial)
      fun _ => .pure trivial
  refine Confined.then inferInstance fun _ => (ReadsIn.capture (.ite
    (fun _ => Confined.then inferInstance fun _ => Confined.then inferInstance fun _ => hrest)
    fun _ => hrest)).bind ?_
  rintro ⟨ok, ops⟩ ⟨_, hops⟩
  refine .pure ?_
  cases ok with
  | true => rintro _ ⟨⟩; exact hops
  | false => rintro _ ⟨⟩

theorem slotArms_reads {arm : Nat → TransM (Option (List Op))} {entries : Nat → List MatchEntry}
    (harm : ∀ i, ReadsIn S (arm i) (AllowedOps S))
    (hentries : ∀ i, ∀ e ∈ entries i, AllowedEntry S e) (is : List Nat) :
    ReadsIn S (slotArms arm entries is) (AllowedArms S) := by
  induction is with
  | nil => exact .pure (by rintro _ ⟨⟩; simp)
  | cons i is ih =>
    refine (harm i).bind fun r hr => ?_
    cases r with
    | none => exact .pure .none
    | some ops =>
      refine ih.bind fun rest hrest => ?_
      cases rest with
      | none => exact .pure .none
      | some arms =>
        refine .pure ?_
        rintro _ ⟨⟩ a ha
        rcases List.mem_cons.mp ha with rfl | ha
        · exact ⟨hentries i, hr ops rfl⟩
        · exact hrest arms rfl a ha

theorem emitTaggedUpdate_reads {mr : MapRef} {kp vp : RegInfo} {kw : Width} (h2 : S 2)
    (h3 : vp.tag ≠ .scalar → S 3) :
    ReadsIn S (emitTaggedUpdate idx mr kp vp kw) (AllowedArms S) := by
  refine (readMapKey_reads h2).bind fun a ha => ?_
  cases a with
  | none => exact .pure .none
  | some tKey =>
    have hkey : Allowed S tKey := ha tKey rfl
    refine emitSlotHeaders_reads.bind ?_
    rintro ⟨pres, tags⟩ ⟨hpres, htags⟩
    refine fresh_reads fun k => Confined.then inferInstance fun _ => fresh_reads fun _ =>
      fresh_reads fun kFull => Confined.then inferInstance fun _ =>
        Confined.then inferInstance fun _ => Confined.then inferInstance fun t => ?_
    refine (slotArms_reads (fun _ => armOps_reads h3 inferInstance)
      (fun _ => hitEntries_allowed hpres htags hkey) _).bind fun r hover => ?_
    cases r with
    | none => exact .pure .none
    | some overwrites =>
      refine (slotArms_reads (fun _ => armOps_reads h3 inferInstance) (fun i e he => ?_) _).bind
        fun r hins => ?_
      · obtain rfl := List.mem_singleton.mp he
        exact allowedEntry_const (allowed_getD hpres i)
      cases r with
      | none => exact .pure .none
      | some inserts =>
        refine .pure ?_
        rintro _ ⟨⟩ a hmem
        rcases List.mem_append.mp hmem with hmem | hmem
        · exact hover _ rfl a hmem
        rcases List.mem_cons.mp hmem with rfl | hmem
        · refine ⟨fun e he => ?_, constOp_allowed⟩
          obtain rfl := List.mem_singleton.mp he
          exact allowedEntry_const inferInstance
        rcases List.mem_append.mp hmem with hmem | hmem
        · exact hins _ rfl a hmem
        · obtain rfl := List.mem_singleton.mp hmem
          exact default_allowed

theorem emitArrayUpdate_reads {mr : MapRef} {kp vp : RegInfo} {kw : Width} (hst : TagsSeen S st)
    (h2 : S 2) (h3 : vp.tag ≠ .scalar → S 3) :
    ReadsIn S (emitArrayUpdate idx mr kp vp st kw) (TagsSeen S) := by
  refine (emitSlot_reads h2).bind fun a ha => ?_
  cases a with
  | none => exact .pure hst.clobber
  | some p =>
    have hslot : Allowed S p.1 := ha p rfl
    refine fresh_reads fun k => Confined.then inferInstance fun _ =>
      Confined.then inferInstance fun _ => (copyMapValue_reads h3).then fun ok => .ite (fun _ =>
        Confined.then inferInstance fun _ => .pure ?_) fun _ => .pure hst.clobber
    exact hst.clobber.setReg (.inr ⟨rfl, rfl⟩)

theorem emitMapWrite_reads {mr : MapRef} {kp vp : RegInfo} (hst : TagsSeen S st) (h2 : S 2)
    (h3 : vp.tag ≠ .scalar → S 3) : ReadsIn S (emitMapWrite idx mr kp vp st) (AllowedCall S) := by
  refine Confined.then inferInstance fun _ => Confined.then inferInstance fun _ => .ite
    (fun _ => (emitArrayUpdate_reads hst h2 h3).bind fun _ hst => .pure ⟨.none, hst⟩)
    fun _ => (emitTaggedUpdate_reads h2 h3).bind fun r hr => ?_
  cases r with
  | none => exact .pure ⟨.none, hst.clobber⟩
  | some arms => exact .pure ⟨hr, hst.clobber.setReg (.inr ⟨rfl, rfl⟩)⟩

theorem emitMapUpdate_reads (hst : TagsSeen S st) (h2 : S 2) :
    ReadsIn S (emitMapUpdate idx st) (AllowedCall S) := by
  have h3 : (st.reg 3).tag ≠ .scalar → S 3 := fun h =>
    (hst 3 fun hp => h hp.1).resolve_right (by decide)
  refine Confined.then inferInstance fun c => ?_
  dsimp only
  cases mapOf c.maps (st.reg 1) with
  | none => exact refuse_reads hst
  | some mr =>
    have hsame : ReadsIn S (pure ((none : Option (List Arm)), st)) (AllowedCall S) :=
      .pure ⟨.none, hst⟩
    have hrange : ReadsIn S (do
        set_ (hReg 0) (-e2big)
        pure ((none : Option (List Arm)), (st.setReg 0 .scalar).clobber)) (AllowedCall S) :=
      Confined.then inferInstance fun _ => .pure ⟨.none, (hst.setReg (.inr ⟨rfl, rfl⟩)).clobber⟩
    -- past the check of an array key
    refine Confined.then inferInstance fun _ => .ite (fun _ => hsame) fun _ =>
      .ite (fun _ => refuse_reads hst) fun _ => .ite
        (fun _ => Confined.then inferInstance fun _ => .ite (fun _ => hsame) ?_)
        fun _ => Confined.then inferInstance fun _ => .ite (fun _ => hsame) ?_
    all_goals
      exact fun _ => .ite (fun _ => refuse_reads hst) fun _ => .ite (fun _ => hrange) fun _ =>
        .ite (fun _ => refuse_reads hst) fun _ => .ite (fun _ => refuse_reads hst) fun _ =>
          emitMapWrite_reads hst h2 h3

/-- A call reads registers that the scan marks for it, but for `r3`, which then holds a
pointer. -/
theorem translateCall_reads {term : Insn} (hst : TagsSeen S st) (h0 : S 0) (h2 : S 2) :
    ReadsIn S (translateCall idx term st) (AllowedCall S) :=
  .ite (fun _ => refuse_reads hst) fun _ => .ite (fun _ => emitMapLookup_reads hst h0 h2)
    fun _ => .ite (fun _ => emitMapUpdate_reads hst h2) fun _ => refuse_reads hst

end Helpers

end Ect
