-- SUMMARY: How many scratch headers a map call takes, and when the pool is too small for it.
import Ect.Maps.Calls
import Ect.Translate.Program

/-!
# The scratch pool

A call resets the pool and takes a header for the key, two for each slot of a tagged map,
and a few for the copy. `Admits` is a run that reports nothing but a pool that ran out, and
`Uses` says how many headers such a run takes.
-/

namespace Ect

open TransM

variable {α β : Type} {idx : Nat} {c : Config} {t t' : Translator} {r : Bool} {kw : Width}
  {st st' : AbsState} {kp vp : RegInfo} {mr : MapRef}

/-- What `fresh_tmp` reports when the pool is empty. -/
def poolDiag (idx : Nat) : String :=
  let msg := "ran out of scratch headers"
  s!"bpf_to_ir: insn {idx}: unsupported: {msg}"

namespace TransM

/-- The method returns `a`, leaves `t'`, and reports nothing but a pool that ran out; `r`
says whether it reports that. -/
def Admits (m : TransM α) (idx : Nat) (c : Config) (t : Translator) (a : α) (t' : Translator)
    (r : Bool) : Prop :=
  ∃ out, m c t = .ok (a, t', out) ∧ (∀ d ∈ out.diags, d = poolDiag idx) ∧
    (r = true ↔ poolDiag idx ∈ out.diags)

/-! ## Runs that report nothing else -/

section Admits

theorem admits_silent {m : TransM α} {a b : α} {t₁ : Translator} {out : Out}
    (hm : m c t = .ok (b, t₁, out)) (hout : out.diags = []) :
    m.Admits idx c t a t' r ↔ a = b ∧ t' = t₁ ∧ r = false := by
  constructor
  · rintro ⟨out', hm', _, hr⟩
    rw [hm] at hm'
    obtain ⟨rfl, rfl, rfl⟩ := by simpa using hm'
    rw [hout] at hr
    exact ⟨rfl, rfl, by simpa using hr⟩
  · rintro ⟨rfl, rfl, rfl⟩
    exact ⟨out, hm, by simp [hout], by simp [hout]⟩

@[simp] theorem admits_pure {a b : α} :
    (pure a : TransM α).Admits idx c t b t' r ↔ b = a ∧ t' = t ∧ r = false := admits_silent rfl rfl

@[simp] theorem admits_config {a : Config} :
    config.Admits idx c t a t' r ↔ a = c ∧ t' = t ∧ r = false := admits_silent rfl rfl

@[simp] theorem admits_get {a : Translator} :
    get.Admits idx c t a t' r ↔ a = t ∧ t' = t ∧ r = false := admits_silent rfl rfl

@[simp] theorem admits_modify {f : Translator → Translator} {u : Unit} :
    (modify f).Admits idx c t u t' r ↔ t' = f t ∧ r = false := by
  simp [admits_silent (m := modify f) (t := t) (c := c) rfl rfl]

@[simp] theorem admits_emit {op : Op} {u : Unit} :
    (emit op).Admits idx c t u t' r ↔ t' = t ∧ r = false := by
  simp [admits_silent (m := emit op) (t := t) (c := c) rfl rfl]

theorem admits_bind {x : TransM α} {f : α → TransM β} {b : β} :
    (x >>= f).Admits idx c t b t' r ↔ ∃ a t₁ r₁, x.Admits idx c t a t₁ r₁ ∧
      ∃ r₂, (f a).Admits idx c t₁ b t' r₂ ∧ r = (r₁ || r₂) := by
  constructor
  · rintro ⟨out, hrun, hall, hr⟩
    simp only [bind, TransM.bind] at hrun
    split at hrun
    · cases hrun
    · rename_i a t₁ o₁ hx
      split at hrun
      · cases hrun
      · rename_i b' t₂ o₂ hf
        obtain ⟨rfl, rfl, rfl⟩ := by simpa using hrun
        simp only [Out.append, List.mem_append] at hall hr
        refine ⟨a, t₁, decide (poolDiag idx ∈ o₁.diags),
          ⟨o₁, hx, fun d hd => hall d (.inl hd), by simp⟩,
          decide (poolDiag idx ∈ o₂.diags), ⟨o₂, hf, fun d hd => hall d (.inr hd), by simp⟩, ?_⟩
        rw [Bool.eq_iff_iff, hr]
        simp
  · rintro ⟨a, t₁, r₁, ⟨o₁, hx, hall₁, hr₁⟩, r₂, ⟨o₂, hf, hall₂, hr₂⟩, rfl⟩
    refine ⟨o₁.append o₂, by simp only [bind, TransM.bind, hx, hf], fun d hd => ?_, ?_⟩
    · exact (List.mem_append.mp hd).elim (hall₁ d) (hall₂ d)
    · simp [Out.append, hr₁, hr₂]

/-- The rest of an admitted sequence is admitted. -/
theorem Admits.tail {x : TransM α} {f : α → TransM β} {b : β}
    (h : (x >>= f).Admits idx c t b t' r) : ∃ a t₁ r₂, (f a).Admits idx c t₁ b t' r₂ := by
  obtain ⟨a, t₁, _, _, r₂, hrest, _⟩ := admits_bind.mp h
  exact ⟨a, t₁, r₂, hrest⟩

theorem admits_capture {x : TransM α} {p : α × List Op}
    (h : (capture x).Admits idx c t p t' r) : x.Admits idx c t p.1 t' r := by
  obtain ⟨out, hrun, hall, hr⟩ := h
  unfold capture at hrun
  split at hrun
  · cases hrun
  · rename_i a t₁ o hx
    obtain ⟨rfl, rfl, rfl⟩ := by simpa using hrun
    exact ⟨o, hx, hall, hr⟩

theorem unsupported_diag_inj {msg other : String}
    (h : s!"bpf_to_ir: insn {idx}: unsupported: {msg}" =
      s!"bpf_to_ir: insn {idx}: unsupported: {other}") : msg = other := by
  have hlist := congrArg String.toList h
  simp only [String.toList_append] at hlist
  exact String.toList_injective (List.append_cancel_left hlist)

/-- The message does not start as the pool's does. -/
def NotPool (msg : String) : Prop := (msg.toList.head?.any (· != 'r')) = true

instance (msg : String) : Decidable (NotPool msg) := inferInstanceAs (Decidable (_ = true))

theorem NotPool.append {a : String} (h : NotPool a) (b : String) : NotPool (a ++ b) := by
  unfold NotPool at h ⊢
  rw [String.toList_append, List.head?_append]
  cases hhead : a.toList.head? with
  | none => simp [hhead] at h
  | some ch => simpa [hhead] using h

theorem not_admits_unsupported_bind {msg : String} {f : Unit → TransM β} {b : β}
    (hmsg : NotPool msg) : ¬(unsupported idx msg >>= f).Admits idx c t b t' r := fun h => by
  obtain ⟨_, _, _, ⟨out, hrun, hall, _⟩, _⟩ := admits_bind.mp h
  obtain ⟨_, rfl⟩ := by simpa [unsupported] using hrun
  obtain rfl := unsupported_diag_inj (hall _ (List.mem_singleton_self _))
  exact absurd hmsg (by decide)

end Admits

/-! ## Counting headers -/

/-- Every admitted run of the method takes `k` headers, if the pool has them, and reports
that it ran out if it does not. -/
def Uses (m : TransM α) (idx : Nat) (c : Config) (k : Nat) : Prop :=
  ∀ ⦃t a t' r⦄, m.Admits idx c t a t' r → t.tmpNext ≤ numTmps →
    (r = true ↔ numTmps < t.tmpNext + k) ∧ (r = false → t'.tmpNext = t.tmpNext + k)

section Uses

theorem Uses.of_keeps {m : TransM α}
    (h : ∀ {t a t' r}, m.Admits idx c t a t' r → r = false ∧ t'.tmpNext = t.tmpNext) :
    m.Uses idx c 0 := fun _ _ _ _ hrun hle => by
  obtain ⟨rfl, htmp⟩ := h hrun
  exact ⟨by simp; omega, fun _ => htmp⟩

theorem Uses.pure {a : α} : (pure a : TransM α).Uses idx c 0 :=
  Uses.of_keeps fun h => by obtain ⟨_, rfl, rfl⟩ := admits_pure.mp h; exact ⟨rfl, rfl⟩

theorem Uses.config : (config).Uses idx c 0 :=
  Uses.of_keeps fun h => by obtain ⟨_, rfl, rfl⟩ := admits_config.mp h; exact ⟨rfl, rfl⟩

theorem Uses.emit {op : Op} : (emit op).Uses idx c 0 :=
  Uses.of_keeps fun h => by obtain ⟨rfl, rfl⟩ := admits_emit.mp h; exact ⟨rfl, rfl⟩

theorem Uses.freshTmp : (freshTmp idx).Uses idx c 1 := fun _ _ _ _ h hle => by
  unfold TransM.freshTmp at h
  obtain ⟨_, _, _, hget, r₂, h₁, rfl⟩ := admits_bind.mp h
  obtain ⟨rfl, rfl, rfl⟩ := admits_get.mp hget
  split at h₁
  · rename_i hfull
    obtain ⟨_, _, r₁, ⟨out, hrun, _, hr⟩, r₃, _, rfl⟩ := admits_bind.mp h₁
    obtain ⟨_, rfl⟩ := by simpa [unsupported] using hrun
    have : r₁ = true := hr.mpr (List.mem_singleton_self _)
    simp only [this, Bool.true_or, Bool.or_true, true_iff, reduceCtorEq, false_implies, and_true]
    omega
  · rename_i hroom
    obtain ⟨_, _, _, hmod, _, hret, rfl⟩ := admits_bind.mp h₁
    obtain ⟨rfl, rfl⟩ := admits_modify.mp hmod
    obtain ⟨_, rfl, rfl⟩ := admits_pure.mp hret
    simp only [Bool.or_self, Bool.false_eq_true, false_iff, forall_const, and_true]
    omega

theorem Admits.count {m : TransM α} {a : α} {k : Nat} (h : m.Admits idx c t a t' r)
    (hle : t.tmpNext ≤ numTmps) (hm : m.Uses idx c k) :
    (r = true ↔ numTmps < t.tmpNext + k) ∧ (r = false → t'.tmpNext = t.tmpNext + k) := hm h hle

/-- The rest of a sequence runs where its first part leaves the pool, unless that part ran
out. -/
theorem Uses.step {x : TransM α} {f : α → TransM β} {k : Nat} {b : β} (hx : x.Uses idx c k)
    (h : (x >>= f).Admits idx c t b t' r) (hle : t.tmpNext ≤ numTmps) :
    (r = true ∧ numTmps < t.tmpNext + k) ∨
      ∃ a t₁, x.Admits idx c t a t₁ false ∧ (f a).Admits idx c t₁ b t' r ∧
        t₁.tmpNext = t.tmpNext + k ∧ t₁.tmpNext ≤ numTmps := by
  obtain ⟨a, t₁, r₁, hfirst, r₂, hrest, rfl⟩ := admits_bind.mp h
  obtain ⟨hout, hnext⟩ := hx hfirst hle
  cases r₁ with
  | true => exact .inl ⟨rfl, hout.mp rfl⟩
  | false =>
    have hfits : ¬numTmps < t.tmpNext + k := fun hlt => Bool.false_ne_true (hout.mpr hlt)
    exact .inr ⟨a, t₁, hfirst, by simpa using hrest, hnext rfl, by rw [hnext rfl]; omega⟩

theorem Uses.bind_of {x : TransM α} {f : α → TransM β} {k₁ k₂ : Nat} (hx : x.Uses idx c k₁)
    (hf : ∀ t a t', x.Admits idx c t a t' false → (f a).Uses idx c k₂) :
    (x >>= f).Uses idx c (k₁ + k₂) := fun t b t' r h hle => by
  rcases hx.step h hle with ⟨rfl, hlt⟩ | ⟨a, t₁, hfirst, hrest, hnext, hle₁⟩
  · exact ⟨by simp; omega, fun hr => by cases hr⟩
  · obtain ⟨hout, hend⟩ := hf _ _ _ hfirst hrest hle₁
    rw [hnext, Nat.add_assoc] at hout hend
    exact ⟨hout, hend⟩

theorem Uses.bind {x : TransM α} {f : α → TransM β} {k j : Nat} (hx : x.Uses idx c k)
    (hf : ∀ a, (f a).Uses idx c j) : (x >>= f).Uses idx c (k + j) :=
  hx.bind_of fun _ a _ _ => hf a

/-- A first part that takes no header. -/
theorem Uses.after {x : TransM α} {f : α → TransM β} {k : Nat} (hx : x.Uses idx c 0)
    (hf : ∀ a, (f a).Uses idx c k) : (x >>= f).Uses idx c k := by
  have h := hx.bind hf
  rwa [Nat.zero_add] at h

/-- A run that reports something else is no admitted run. -/
theorem Uses.of_unsupported {msg : String} {f : Unit → TransM β} {k : Nat}
    (hmsg : NotPool msg) : (unsupported idx msg >>= f).Uses idx c k :=
  fun _ _ _ _ h => absurd h (not_admits_unsupported_bind hmsg)

theorem Uses.stackHeader {slot : Int} : (stackHeader slot).Uses idx c 0 :=
  Uses.of_keeps fun h => by
    unfold TransM.stackHeader at h
    obtain ⟨_, _, _, hget, _, h₁, rfl⟩ := admits_bind.mp h
    obtain ⟨rfl, rfl, rfl⟩ := admits_get.mp hget
    split at h₁
    · obtain ⟨_, rfl, rfl⟩ := admits_pure.mp h₁
      exact ⟨rfl, rfl⟩
    · split at h₁
      · obtain ⟨_, rfl, rfl⟩ := admits_pure.mp h₁
        exact ⟨rfl, rfl⟩
      · obtain ⟨_, _, _, hmod, _, h₂, rfl⟩ := admits_bind.mp h₁
        obtain ⟨rfl, rfl⟩ := admits_modify.mp hmod
        obtain ⟨_, rfl, rfl⟩ := admits_pure.mp h₂
        exact ⟨rfl, rfl⟩

end Uses

end TransM

/-! ## Keys, slots and copies -/

/-- The headers the key takes: the value, and the raw load when it is not in the frame. -/
def keyHeaders (kp : RegInfo) : Nat := if kp.tag = .stack then 1 else 2

theorem readMapKey_uses : (readMapKey idx kp kw).Uses idx c (keyHeaders kp) := by
  unfold readMapKey keyHeaders
  by_cases htag : kp.tag = .stack
  · simp only [htag, if_true]
    refine Uses.freshTmp.bind (j := 0) fun _ => ?_
    split
    · exact Uses.of_unsupported (by decide)
    · refine Uses.stackHeader.after fun _ => ?_
      split
      · exact Uses.of_unsupported (by (iterate 4 refine .append ?_ _); decide)
      · exact Uses.emit.after fun _ => .pure
  · simp only [htag, if_false]
    refine Uses.freshTmp.bind (j := 1) fun _ => Uses.config.after fun _ => ?_
    split
    · exact Uses.of_unsupported (by decide)
    · exact Uses.freshTmp.bind fun _ => Uses.emit.after fun _ => Uses.emit.after fun _ => .pure

theorem readMapKey_admits {x : Option Nat} (h : (readMapKey idx kp kw).Admits idx c t x t' r) :
    ∃ tKey, x = some tKey := by
  unfold readMapKey at h
  obtain ⟨_, _, _, h₁⟩ := h.tail
  split at h₁
  · split at h₁
    · exact absurd h₁ (not_admits_unsupported_bind (by decide))
    · obtain ⟨_, _, _, h₂⟩ := h₁.tail
      split at h₂
      · exact absurd h₂ (not_admits_unsupported_bind (by (iterate 4 refine .append ?_ _); decide))
      · obtain ⟨_, _, _, h₃⟩ := h₂.tail
        exact ⟨_, (admits_pure.mp h₃).1⟩
  · obtain ⟨_, _, _, h₂⟩ := h₁.tail
    dsimp only at h₂
    split at h₂
    · exact absurd h₂ (not_admits_unsupported_bind (by decide))
    · obtain ⟨_, _, _, h₃⟩ := h₂.tail
      obtain ⟨_, _, _, h₄⟩ := h₃.tail
      obtain ⟨_, _, _, h₅⟩ := h₄.tail
      exact ⟨_, (admits_pure.mp h₅).1⟩

/-- The headers the slot of an array access takes. -/
def slotHeaders (kp : RegInfo) (st : AbsState) : Nat :=
  if (constKey kp st).isSome then 1 else 1 + keyHeaders kp

theorem emitSlot_uses {mi : MapInfo} :
    (emitSlot idx mi kp st kw).Uses idx c (slotHeaders kp st) := by
  unfold emitSlot slotHeaders
  cases constKey kp st with
  | some k => exact Uses.freshTmp.bind fun _ => Uses.emit.after fun _ => .pure
  | none =>
    refine Uses.freshTmp.bind fun _ => readMapKey_uses.bind (j := 0) fun r => ?_
    cases r with
    | none => exact .pure
    | some tKey => exact Uses.emit.after fun _ => .pure

theorem emitSlot_admits {mi : MapInfo} {x : Option (Nat × Option Nat)}
    (h : (emitSlot idx mi kp st kw).Admits idx c t x t' r) :
    ∃ tSlot, x = some (tSlot, constKey kp st) := by
  unfold emitSlot at h
  obtain ⟨tSlot, _, _, h₁⟩ := h.tail
  cases hkey : constKey kp st with
  | some k =>
    rw [hkey] at h₁
    obtain ⟨_, _, _, h₂⟩ := h₁.tail
    exact ⟨tSlot, (admits_pure.mp h₂).1⟩
  | none =>
    rw [hkey] at h₁
    obtain ⟨_, _, _, hread, _, h₂, _⟩ := admits_bind.mp h₁
    obtain ⟨tKey, rfl⟩ := readMapKey_admits hread
    obtain ⟨_, _, _, h₃⟩ := h₂.tail
    exact ⟨tSlot, (admits_pure.mp h₃).1⟩

theorem emitWidened_uses {w : Width} {region tRaw : Nat} {offs : List Nat} :
    (emitWidened idx w region tRaw offs).Uses idx c offs.length := by
  induction offs with
  | nil => exact .pure
  | cons off offs ih =>
    rw [List.length_cons, Nat.add_comm]
    exact Uses.freshTmp.bind fun _ => Uses.emit.after fun _ => Uses.emit.after fun _ =>
      ih.bind fun _ => .pure

/-- The headers the scan of a tagged map takes: the raw load, and two for each slot. -/
def scanHeaders (mi : MapInfo) : Nat := 1 + (mi.nslots + mi.nslots)

theorem emitSlotHeaders_uses : (emitSlotHeaders idx mr kw).Uses idx c (scanHeaders mr.mi) := by
  have hpres : ∀ tRaw, (emitWidened idx .w8 mr.region tRaw (List.range mr.mi.nslots)).Uses idx c
      mr.mi.nslots := fun _ => by
    simpa using @emitWidened_uses _ _ _ _ _ (List.range mr.mi.nslots)
  have htags : ∀ tRaw, (emitWidened idx kw mr.region tRaw
      ((List.range mr.mi.nslots).map mr.mi.tagOff)).Uses idx c mr.mi.nslots := fun _ => by
    simpa using @emitWidened_uses _ _ _ _ _ ((List.range mr.mi.nslots).map mr.mi.tagOff)
  exact Uses.freshTmp.bind fun _ => (hpres _).bind fun _ => (htags _).bind fun _ => .pure

/-- The headers the copy of a value takes. -/
def copyHeaders (vp : RegInfo) (mi : MapInfo) : Nat :=
  if vp.tag = .stack then 0 else if copySizeModelled mi.valueSize then 1 else 3

theorem emitCopyBytes_uses {srcRegion dstRegion tSa tDa tB : Nat} {dst : Operand} {is : List Nat} :
    (emitCopyBytes srcRegion dstRegion dst tSa tDa tB is).Uses idx c 0 := by
  induction is with
  | nil => exact .pure
  | cons i is ih =>
    refine Uses.after ?_ fun _ => ih
    exact Uses.emit.after fun _ => Uses.emit.after fun _ => Uses.emit.after fun _ => .emit

theorem copyMapValue_uses {dst : Operand} :
    (copyMapValue idx vp mr dst).Uses idx c (copyHeaders vp mr.mi) := by
  unfold copyMapValue copyHeaders
  refine Uses.config.after fun _ => ?_
  by_cases htag : vp.tag = .stack
  · simp only [htag, if_true]
    split
    · exact Uses.of_unsupported (by (iterate 3 refine .append ?_ _); decide)
    · split
      · exact Uses.of_unsupported (by decide)
      · refine Uses.stackHeader.after fun _ => ?_
        split
        · exact Uses.of_unsupported (by (iterate 2 refine .append ?_ _); decide)
        · exact Uses.emit.after fun _ => .pure
  · simp only [htag, if_false]
    split
    · exact Uses.of_unsupported (by decide)
    · cases copySizeModelled mr.mi.valueSize with
      | true => exact Uses.freshTmp.bind fun _ => Uses.emit.after fun _ =>
          Uses.emit.after fun _ => .pure
      | false =>
        simp only [Bool.false_eq_true, if_false]
        split
        · exact Uses.of_unsupported (by (iterate 3 refine .append ?_ _); decide)
        · exact Uses.freshTmp.bind fun _ => Uses.freshTmp.bind fun _ =>
            Uses.freshTmp.bind fun _ => emitCopyBytes_uses.after fun _ => .pure

/-! ## Lookups and updates -/

theorem checkArrayKey_uses {mi : MapInfo} {key : Option Nat} :
    (checkArrayKey idx mi key).Uses idx c 0 := by
  unfold checkArrayKey
  split
  · split
    · exact Uses.of_unsupported (by (iterate 4 refine .append ?_ _); decide)
    · exact .pure
  · split
    · exact Uses.of_unsupported (by (iterate 6 refine .append ?_ _); decide)
    · exact .pure

theorem checkArrayKey_admits {mi : MapInfo} {key : Option Nat} {b : Bool}
    (h : (checkArrayKey idx mi key).Admits idx c t b t' r) : b = true ∧ r = false := by
  unfold checkArrayKey at h
  split at h
  · split at h
    · exact absurd h (not_admits_unsupported_bind (by (iterate 4 refine .append ?_ _); decide))
    · exact ⟨(admits_pure.mp h).1, (admits_pure.mp h).2.2⟩
  · split at h
    · exact absurd h (not_admits_unsupported_bind (by (iterate 6 refine .append ?_ _); decide))
    · exact ⟨(admits_pure.mp h).1, (admits_pure.mp h).2.2⟩

theorem emitArrayLookup_uses {mi : MapInfo} :
    (emitArrayLookup idx mi kp st kw).Uses idx c
      (slotHeaders kp st + (1 + if (constKey kp st).isSome then 0 else 1)) := by
  unfold emitArrayLookup
  have hrest := (@emitSlot_uses idx c kw st kp mi)
  rw [← Nat.zero_add (slotHeaders kp st + _)]
  refine checkArrayKey_uses.bind_of fun _ _ _ hcheck => ?_
  rw [(checkArrayKey_admits hcheck).1, if_neg (by decide)]
  refine hrest.bind_of fun _ _ _ hslot => ?_
  obtain ⟨tSlot, rfl⟩ := emitSlot_admits hslot
  refine Uses.freshTmp.bind fun _ => Uses.emit.after fun _ => Uses.emit.after fun _ => ?_
  cases constKey kp st with
  | some k => exact .pure
  | none => exact Uses.freshTmp.bind fun _ => Uses.emit.after fun _ => .pure

theorem emitTaggedLookup_uses :
    (emitTaggedLookup idx mr kp kw).Uses idx c (keyHeaders kp + scanHeaders mr.mi) := by
  refine readMapKey_uses.bind_of fun _ _ _ hread => ?_
  obtain ⟨tKey, rfl⟩ := readMapKey_admits hread
  exact emitSlotHeaders_uses.bind fun _ => .pure

theorem emitArrayUpdate_uses :
    (emitArrayUpdate idx mr kp vp st kw).Uses idx c
      (slotHeaders kp st + (1 + copyHeaders vp mr.mi)) := by
  refine emitSlot_uses.bind_of fun _ _ _ hslot => ?_
  obtain ⟨tSlot, rfl⟩ := emitSlot_admits hslot
  refine Uses.freshTmp.bind fun _ => Uses.emit.after fun _ => Uses.emit.after fun _ =>
    copyMapValue_uses.bind (j := 0) fun b => ?_
  cases b with
  | true => exact Uses.emit.after fun _ => .pure
  | false => exact .pure

/-- An arm takes the headers from `mark` on, whatever the arms before it took. -/
theorem armOps_admits {tTag mark i : Nat} {insert : Bool} {x : Option (List Op)}
    (h : (armOps idx mr vp kw tTag mark insert i).Admits idx c t x t' r) (hmark : mark ≤ numTmps) :
    r = true ↔ numTmps < mark + copyHeaders vp mr.mi := by
  unfold armOps at h
  obtain ⟨_, t₁, _, hset, r₂, h₁, rfl⟩ := admits_bind.mp h
  obtain ⟨rfl, rfl⟩ := admits_modify.mp hset
  obtain ⟨⟨ok, o⟩, _, r₃, hcap, _, h₂, rfl⟩ := admits_bind.mp h₁
  obtain ⟨_, _, rfl⟩ := admits_pure.mp h₂
  have hcopy : ∀ dst : Operand, (do
      if (← copyMapValue idx vp mr dst) then do set_ (hReg 0) 0; pure true
      else pure false).Uses idx c (copyHeaders vp mr.mi) := fun dst =>
    copyMapValue_uses.bind (j := 0) fun ok => by
      cases ok with
      | true => exact Uses.emit.after fun _ => .pure
      | false => exact .pure
  have hcount := (admits_capture hcap).count hmark (k := copyHeaders vp mr.mi) (by
    cases insert with
    | true => exact Uses.emit.after fun _ => Uses.emit.after fun _ => hcopy _
    | false =>
      simp only [Bool.false_eq_true, if_false]
      exact hcopy _)
  simpa using hcount.1

theorem slotArms_admits {tTag mark : Nat} {insert : Bool} {entries : Nat → List MatchEntry}
    {is : List Nat} {x : Option (List Arm)}
    (h : (slotArms (armOps idx mr vp kw tTag mark insert) entries is).Admits idx c t x t' r)
    (hmark : mark ≤ numTmps) :
    r = true ↔ is ≠ [] ∧ numTmps < mark + copyHeaders vp mr.mi := by
  induction is generalizing t t' x r with
  | nil =>
    obtain ⟨_, _, rfl⟩ := admits_pure.mp h
    simp
  | cons i is ih =>
    unfold slotArms at h
    obtain ⟨o, _, r₁, hfirst, r₂, h₁, rfl⟩ := admits_bind.mp h
    have harm := armOps_admits hfirst hmark
    have hrest : r₂ = true → numTmps < mark + copyHeaders vp mr.mi := by
      intro hr
      cases o with
      | none =>
        obtain ⟨_, _, rfl⟩ := admits_pure.mp h₁
        cases hr
      | some o =>
        obtain ⟨arms, _, r₃, hmore, r₄, h₂, rfl⟩ := admits_bind.mp h₁
        have hr₄ : r₄ = false := by
          cases arms with
          | none => exact (admits_pure.mp h₂).2.2
          | some arms => exact (admits_pure.mp h₂).2.2
        exact ((ih hmore).mp (by simpa [hr₄] using hr)).2
    simp only [Bool.or_eq_true, harm, ne_eq, reduceCtorEq, not_false_eq_true, true_and]
    exact ⟨fun h => h.elim id hrest, .inl⟩

/-- A tagged update takes the key, the scan, the tag, the capacity byte twice, and the
headers of one copy. -/
theorem emitTaggedUpdate_admits {x : Option (List Arm)}
    (h : (emitTaggedUpdate idx mr kp vp kw).Admits idx c t x t' r) (hle : t.tmpNext ≤ numTmps)
    (hslots : 1 ≤ mr.mi.nslots) :
    r = true ↔ numTmps <
      t.tmpNext + (keyHeaders kp + scanHeaders mr.mi + 3 + copyHeaders vp mr.mi) := by
  unfold emitTaggedUpdate at h
  rcases readMapKey_uses.step h hle with ⟨rfl, hlt⟩ | ⟨_, t₁, hread, h₁, hn₁, hle₁⟩
  · simp only [true_iff]; omega
  obtain ⟨tKey, rfl⟩ := readMapKey_admits hread
  rcases emitSlotHeaders_uses.step h₁ hle₁ with ⟨rfl, hlt⟩ | ⟨⟨pres, tags⟩, t₂, _, h₂, hn₂, hle₂⟩
  · simp only [true_iff]; omega
  dsimp only at h₂
  rcases Uses.freshTmp.step h₂ hle₂ with ⟨rfl, hlt⟩ | ⟨tTag, t₃, _, h₃, hn₃, hle₃⟩
  · simp only [true_iff]; omega
  rcases Uses.emit.step h₃ hle₃ with ⟨rfl, hlt⟩ | ⟨_, t₄, _, h₄, hn₄, hle₄⟩
  · simp only [true_iff]; omega
  rcases Uses.freshTmp.step h₄ hle₄ with ⟨rfl, hlt⟩ | ⟨_, t₅, _, h₅, hn₅, hle₅⟩
  · simp only [true_iff]; omega
  rcases Uses.freshTmp.step h₅ hle₅ with ⟨rfl, hlt⟩ | ⟨_, t₆, _, h₆, hn₆, hle₆⟩
  · simp only [true_iff]; omega
  rcases Uses.emit.step h₆ hle₆ with ⟨rfl, hlt⟩ | ⟨_, t₇, _, h₇, hn₇, hle₇⟩
  · simp only [true_iff]; omega
  rcases Uses.emit.step h₇ hle₇ with ⟨rfl, hlt⟩ | ⟨_, t₈, _, h₈, hn₈, hle₈⟩
  · simp only [true_iff]; omega
  obtain ⟨mark, t₉, r₁, hget, r₂, h₉, rfl⟩ := admits_bind.mp h₈
  obtain ⟨hmark, ht₉, rfl⟩ := admits_get.mp hget
  subst mark t₉
  -- both families of arms take the same headers
  have hne : List.range mr.mi.nslots ≠ [] := by simp; omega
  obtain ⟨overs, _, r₃, hover, r₄, h₁₀, rfl⟩ := admits_bind.mp h₉
  have hr₃ := slotArms_admits hover hle₈
  have hr₄ : r₄ = true → numTmps < t₈.tmpNext + copyHeaders vp mr.mi := by
    intro hr
    cases overs with
    | none =>
      obtain ⟨_, _, rfl⟩ := admits_pure.mp h₁₀
      cases hr
    | some overs =>
      obtain ⟨inserts, _, r₅, hins, r₆, h₁₁, rfl⟩ := admits_bind.mp h₁₀
      have hr₆ : r₆ = false := by
        cases inserts with
        | none => exact (admits_pure.mp h₁₁).2.2
        | some inserts => exact (admits_pure.mp h₁₁).2.2
      exact ((slotArms_admits hins hle₈).mp (by simpa [hr₆] using hr)).2
  have htotal : t₈.tmpNext + copyHeaders vp mr.mi =
      t.tmpNext + (keyHeaders kp + scanHeaders mr.mi + 3 + copyHeaders vp mr.mi) := by omega
  rw [← htotal]
  simp only [Bool.or_eq_true, Bool.false_eq_true, false_or, hr₃, hne, ne_eq, not_false_eq_true,
    true_and]
  exact ⟨fun h => h.elim id hr₄, .inl⟩

/-! ## Calls -/

theorem checkMapModelled_admits {mi : MapInfo} {b : Bool}
    (h : (checkMapModelled idx mi).Admits idx c t b t' r) : b = true ∧ t' = t ∧ r = false := by
  unfold checkMapModelled at h
  split at h
  · exact absurd h (not_admits_unsupported_bind (by (iterate 5 refine .append ?_ _); decide))
  · exact absurd h (not_admits_unsupported_bind (by (iterate 6 refine .append ?_ _); decide))
  · exact admits_pure.mp h

theorem keyHeaders_le (kp : RegInfo) : keyHeaders kp ≤ 2 := by
  unfold keyHeaders
  split <;> omega

theorem copyHeaders_le (vp : RegInfo) (mi : MapInfo) : copyHeaders vp mi ≤ 3 := by
  unfold copyHeaders
  split
  · omega
  · split <;> omega

theorem slotHeaders_le (kp : RegInfo) (st : AbsState) : slotHeaders kp st ≤ 3 := by
  have := keyHeaders_le kp
  unfold slotHeaders
  split <;> omega

/-- A lookup never runs the pool out: an array takes 5 headers at most, and a hash map
2 + 1 + 2 * 28. -/
theorem emitMapLookup_admits {x : Option (List Arm) × AbsState}
    (h : (emitMapLookup idx st).Admits idx c t x t' r) (hmap : mapOf c.maps (st.reg 1) = some mr)
    (hslots : mr.mi.nslots ≤ mapSlotsMax) : r = false := by
  have hkey := keyHeaders_le (st.reg 2)
  have hslot := slotHeaders_le (st.reg 2) st
  simp only [mapSlotsMax, numTmps] at hslots
  unfold emitMapLookup at h
  obtain ⟨_, _, _, hc, r₁, h₁, rfl⟩ := admits_bind.mp h
  obtain ⟨rfl, rfl, rfl⟩ := admits_config.mp hc
  simp only [hmap] at h₁
  obtain ⟨_, _, _, hcheck, r₂, h₂, rfl⟩ := admits_bind.mp h₁
  obtain ⟨rfl, rfl, rfl⟩ := checkMapModelled_admits hcheck
  rw [if_neg (by decide)] at h₂
  split at h₂
  · exact absurd h₂ (not_admits_unsupported_bind (by (iterate 5 refine .append ?_ _); decide))
  obtain ⟨_, _, _, hset, r₃, h₃, rfl⟩ := admits_bind.mp h₂
  obtain ⟨rfl, rfl⟩ := admits_modify.mp hset
  obtain ⟨_, _, _, hcount, r₄, h₄, rfl⟩ := admits_bind.mp h₃
  obtain ⟨rfl, rfl⟩ := admits_modify.mp hcount
  split at h₄
  · obtain ⟨arms, _, r₅, hscan, r₆, h₅, rfl⟩ := admits_bind.mp h₄
    have hcount := (hscan.count (Nat.zero_le _) emitArrayLookup_uses).1
    simp only [numTmps] at hcount
    have hr₅ : r₅ = false := by
      rw [Bool.eq_false_iff, ne_eq, hcount]
      split <;> omega
    have hr₆ : r₆ = false := by
      cases arms with
      | none => exact (admits_pure.mp h₅).2.2
      | some arms => exact (admits_pure.mp h₅).2.2
    simp [hr₅, hr₆]
  · obtain ⟨arms, _, r₅, hscan, r₆, h₅, rfl⟩ := admits_bind.mp h₄
    have hcount := (hscan.count (Nat.zero_le _) emitTaggedLookup_uses).1
    simp only [numTmps, scanHeaders] at hcount
    have hr₅ : r₅ = false := by
      rw [Bool.eq_false_iff, ne_eq, hcount]
      omega
    have hr₆ : r₆ = false := by
      cases arms with
      | none => exact (admits_pure.mp h₅).2.2
      | some arms => exact (admits_pure.mp h₅).2.2
    simp [hr₅, hr₆]

/-- The one shape of a call the pool is too small for: an update of a hash map with all 28
slots, its key read from a region, its value copied from a region byte by byte. -/
structure PoolTooSmall (st : AbsState) (mi : MapInfo) : Prop where
  hash : mi.isArray = false
  slots : mi.nslots = mapSlotsMax
  key : (st.reg 2).tag ≠ .stack
  value : (st.reg 3).tag ≠ .stack
  size : copySizeModelled mi.valueSize = false

/-- The headers of an update fit but in that one shape, where they are 65. -/
theorem updateHeaders_lt_iff {mi : MapInfo} (harray : mi.isArray = false)
    (hslots : mi.nslots ≤ mapSlotsMax) :
    numTmps < keyHeaders (st.reg 2) + scanHeaders mi + 3 + copyHeaders (st.reg 3) mi ↔
      PoolTooSmall st mi := by
  have hkey := keyHeaders_le (st.reg 2)
  have hcopy := copyHeaders_le (st.reg 3) mi
  simp only [mapSlotsMax, numTmps, scanHeaders] at hslots ⊢
  constructor
  · intro hlt
    have hk : keyHeaders (st.reg 2) = 2 := by omega
    have hv : copyHeaders (st.reg 3) mi = 3 := by omega
    refine ⟨harray, by simp only [mapSlotsMax, numTmps]; omega, ?_, ?_, ?_⟩
    · intro htag
      simp [keyHeaders, htag] at hk
    · intro htag
      simp [copyHeaders, htag] at hv
    · rw [Bool.eq_false_iff]
      intro hsize
      simp only [copyHeaders, hsize, if_true] at hv
      split at hv <;> omega
  · rintro ⟨_, hn, hk, hv, hsize⟩
    simp only [mapSlotsMax, numTmps] at hn
    have : keyHeaders (st.reg 2) = 2 := by simp [keyHeaders, hk]
    have : copyHeaders (st.reg 3) mi = 3 := by simp [copyHeaders, hv, hsize]
    omega

theorem emitMapWrite_admits {x : Option (List Arm) × AbsState}
    (h : (emitMapWrite idx mr (st.reg 2) (st.reg 3) st).Admits idx c t x t' r)
    (hlo : 1 ≤ mr.mi.nslots) (hslots : mr.mi.nslots ≤ mapSlotsMax) :
    r = true ↔ PoolTooSmall st mr.mi := by
  unfold emitMapWrite at h
  obtain ⟨_, _, _, hset, r₁, h₁, rfl⟩ := admits_bind.mp h
  obtain ⟨rfl, rfl⟩ := admits_modify.mp hset
  obtain ⟨_, _, _, hcount, r₂, h₂, rfl⟩ := admits_bind.mp h₁
  obtain ⟨rfl, rfl⟩ := admits_modify.mp hcount
  split at h₂
  · rename_i harray
    obtain ⟨_, _, r₃, hscan, r₄, h₃, rfl⟩ := admits_bind.mp h₂
    obtain ⟨_, _, rfl⟩ := admits_pure.mp h₃
    have hcount := (hscan.count (Nat.zero_le _) emitArrayUpdate_uses).1
    have hslot := slotHeaders_le (st.reg 2) st
    have hcopy := copyHeaders_le (st.reg 3) mr.mi
    simp only [numTmps] at hcount
    have hr₃ : r₃ = false := by
      rw [Bool.eq_false_iff, ne_eq, hcount]
      omega
    simp only [hr₃, Bool.or_self, Bool.false_eq_true, false_iff]
    intro hp
    simp [hp.hash] at harray
  · rename_i harray
    obtain ⟨arms, _, r₃, hscan, r₄, h₃, rfl⟩ := admits_bind.mp h₂
    have hr₄ : r₄ = false := by
      cases arms with
      | none => exact (admits_pure.mp h₃).2.2
      | some arms => exact (admits_pure.mp h₃).2.2
    have hcount := emitTaggedUpdate_admits hscan (Nat.zero_le _) hlo
    simp only [hr₄, Bool.or_false, Bool.false_or, hcount, Nat.zero_add]
    exact updateHeaders_lt_iff (by simpa using harray) hslots

theorem emitMapUpdate_admits {x : Option (List Arm) × AbsState}
    (h : (emitMapUpdate idx st).Admits idx c t x t' r) (hmap : mapOf c.maps (st.reg 1) = some mr)
    (hlo : 1 ≤ mr.mi.nslots) (hslots : mr.mi.nslots ≤ mapSlotsMax) :
    r = true ↔ PoolTooSmall st mr.mi := by
  unfold emitMapUpdate at h
  obtain ⟨_, _, _, hc, r₁, h₁, rfl⟩ := admits_bind.mp h
  obtain ⟨rfl, rfl, rfl⟩ := admits_config.mp hc
  simp only [hmap] at h₁
  obtain ⟨_, _, _, hcheck, r₂, h₂, rfl⟩ := admits_bind.mp h₁
  obtain ⟨rfl, rfl, rfl⟩ := checkMapModelled_admits hcheck
  rw [if_neg (by decide)] at h₂
  split at h₂
  · exact absurd h₂ (not_admits_unsupported_bind (by (iterate 5 refine .append ?_ _); decide))
  simp only [Bool.false_or]
  split at h₂
  · -- an array map never needs the last header
    rename_i harray
    have hsmall : ¬PoolTooSmall st mr.mi := fun hp => by simp [hp.hash] at harray
    obtain ⟨_, _, r₃, hkey, r₄, h₃, rfl⟩ := admits_bind.mp h₂
    obtain ⟨rfl, rfl⟩ := checkArrayKey_admits hkey
    rw [if_neg (by decide)] at h₃
    split at h₃
    · exact absurd h₃ (not_admits_unsupported_bind (by (iterate 3 refine .append ?_ _); decide))
    split at h₃
    · obtain ⟨_, _, r₅, hset, r₆, h₄, rfl⟩ := admits_bind.mp h₃
      obtain ⟨_, rfl⟩ := admits_emit.mp hset
      obtain ⟨_, _, rfl⟩ := admits_pure.mp h₄
      simpa using hsmall
    split at h₃
    · exact absurd h₃ (not_admits_unsupported_bind (by decide))
    split at h₃
    · exact absurd h₃ (not_admits_unsupported_bind (by (iterate 4 refine .append ?_ _); decide))
    simpa using emitMapWrite_admits h₃ hlo hslots
  · rename_i harray
    obtain ⟨_, _, r₃, hkey, r₄, h₃, rfl⟩ := admits_bind.mp h₂
    obtain ⟨rfl, _, rfl⟩ := admits_pure.mp hkey
    rw [if_neg (by decide), if_neg (by simp [harray]), if_neg (by simp [harray])] at h₃
    split at h₃
    · exact absurd h₃ (not_admits_unsupported_bind (by decide))
    split at h₃
    · exact absurd h₃ (not_admits_unsupported_bind (by (iterate 4 refine .append ?_ _); decide))
    simpa using emitMapWrite_admits h₃ hlo hslots

/-- For every call that the helpers' own checks report nothing about, on a map of up to 28
slots: the pool runs out exactly when the call is an update of that one shape. -/
theorem scratch_pool_suffices_iff {i : Insn} {res : Option (List Arm) × AbsState} {out : Out}
    (h : translateCall idx i st c t = .ok (res, t', out))
    (hdiags : ∀ d ∈ out.diags, d = poolDiag idx) (hmap : mapOf c.maps (st.reg 1) = some mr)
    (hlo : 1 ≤ mr.mi.nslots) (hslots : mr.mi.nslots ≤ mapSlotsMax) :
    poolDiag idx ∉ out.diags ↔
      ¬(i.imm.toInt = bpfFuncMapUpdateElem ∧ PoolTooSmall st mr.mi) := by
  have hrun : (translateCall idx i st).Admits idx c t res t' (decide (poolDiag idx ∈ out.diags)) :=
    ⟨out, h, hdiags, by simp⟩
  suffices hr : decide (poolDiag idx ∈ out.diags) = true ↔
      i.imm.toInt = bpfFuncMapUpdateElem ∧ PoolTooSmall st mr.mi from
    not_congr (decide_eq_true_iff.symm.trans hr)
  unfold translateCall at hrun
  split at hrun
  · exact absurd hrun (not_admits_unsupported_bind (by decide))
  split at hrun
  · rename_i himm
    rw [emitMapLookup_admits hrun hmap hslots, himm]
    simp [bpfFuncMapLookupElem, bpfFuncMapUpdateElem]
  split at hrun
  · rename_i himm
    rw [emitMapUpdate_admits hrun hmap hlo hslots, himm]
    simp
  · exact absurd hrun (not_admits_unsupported_bind (by (iterate 3 refine .append ?_ _); decide))

/-- `r2 = r1; r3 = r1; r4 = 0; bpf_map_update_elem(map, r2, r3, r4); exit`. -/
def updateProgram : List Insn :=
  [⟨0xbf, 2, 1, 0, 0⟩, ⟨0xbf, 3, 1, 0, 0⟩, ⟨0xb7, 4, 0, 0, 0⟩, ⟨0x18, 1, 1, 0, 0⟩, ⟨0, 0, 0, 0, 0⟩,
    ⟨0x85, 0, 0, 0, 2⟩, ⟨0x95, 0, 0, 0, 0⟩]

/-- A hash map of 64 entries with 28 slots, whose values have this size. -/
def updateConfig (valueSize : Nat) : Config :=
  ⟨ctxXdpMd, [⟨"flows", 1, 4, valueSize, 64, mapSlotsMax⟩], fun i => if i = 3 then some 0 else none⟩

/-- What the translator knows before the call. -/
def updateState : AbsState :=
  (((entryState.setReg 2 (pointer .ctx 0)).setReg 3 (pointer .ctx 0)).setReg 4
    (scalarConst 0)).setReg 1 (mapPointer .map 0 0)

/-- What the call reports, if it does not raise. -/
def updateDiags (valueSize : Nat) : Option (List String) :=
  match translateCall 5 ⟨0x85, 0, 0, 0, 2⟩ updateState (updateConfig valueSize) .init with
  | .ok (_, _, out) => some out.diags
  | .error _ => none

/-- With 8-byte values the update fits. -/
theorem updateProgram_fits :
    ∃ res t' out, translateCall 5 ⟨0x85, 0, 0, 0, 2⟩ updateState (updateConfig 8) .init =
      .ok (res, t', out) ∧ poolDiag 5 ∉ out.diags := by
  have hdiags : updateDiags 8 = some [] := by decide +kernel
  unfold updateDiags at hdiags
  split at hdiags
  · rename_i res t' out hrun
    have hout : out.diags = [] := Option.some.inj hdiags
    refine ⟨res, t', out, hrun, (scratch_pool_suffices_iff hrun (by simp [hout])
      rfl (by decide) (by decide)).mpr ?_⟩
    rintro ⟨_, hsmall⟩
    exact absurd hsmall.size (by decide)
  · cases hdiags

/-- With 16-byte values the translation of `updateProgram` reports that the pool ran out, and
nothing else. -/
theorem updateProgram_counterexample :
    ∃ mods t' out, translateProgram updateProgram (updateConfig 16) .init = .ok (mods, t', out) ∧
      out.diags = List.replicate 56 (poolDiag 5) := by
  have hdiags : (match translateProgram updateProgram (updateConfig 16) .init with
      | .ok (_, _, out) => some out.diags
      | .error _ => none) = some (List.replicate 56 (poolDiag 5)) := by decide +kernel
  split at hdiags
  · rename_i mods t' out hrun
    exact ⟨mods, t', out, hrun, Option.some.inj hdiags⟩
  · cases hdiags

end Ect
