-- SUMMARY: Which accepted stack accesses lie in the frame.
import Ect.Lowering.Visits

/-!
# Stack bounds

The translator checks where a stack access starts, and not where it ends.
-/

namespace Ect

open TransM

/-- The bytes `[r10 + off, r10 + off + nbytes)`. -/
structure StackBytes where
  off : Int
  nbytes : Nat
  deriving DecidableEq, Repr

/-- The bytes lie in `[r10 - 512, r10)`. -/
def StackBytes.InFrame (a : StackBytes) : Prop := -bpfStackSize ≤ a.off ∧ a.off + a.nbytes ≤ 0

instance (a : StackBytes) : Decidable a.InFrame := inferInstanceAs (Decidable (_ ∧ _))

/-- The bytes a pointer into the stack at a known offset covers. -/
def pointerBytes (r : RegInfo) (off : Int) (nbytes : Nat) : List StackBytes :=
  if r.tag = .stack ∧ r.offKnown then [⟨r.off + off, nbytes⟩] else []

/-- An update of an array at a constant key that is out of range writes nothing. -/
def updateSkipped (st : AbsState) (mi : MapInfo) : Bool :=
  mi.isArray && (match constKey (st.reg 2) st with
    | some k => decide (mi.maxEntries ≤ k)
    | none => false)

/-- The stack bytes a map helper reads: the key at `r2`, and the value of an update that
writes at `r3`. -/
def helperBytes (c : Config) (i : Insn) (st : AbsState) : List StackBytes :=
  match mapOf c.maps (st.reg 1) with
  | none => []
  | some mr => pointerBytes (st.reg 2) 0 mr.mi.keySize ++
    if i.imm.toInt = bpfFuncMapUpdateElem ∧ updateSkipped st mr.mi = false then
      pointerBytes (st.reg 3) 0 mr.mi.valueSize
    else []

/-- The stack bytes an instruction accesses. -/
def stackAccesses (insns : List Insn) (c : Config) (v : Visit) : List StackBytes :=
  let i := insnAt insns v.idx
  if i.cls = .ldx then pointerBytes (v.st.reg i.src) i.off.toInt i.width.bytes
  else if i.cls = .stx ∨ i.cls = .st then pointerBytes (v.st.reg i.dst) i.off.toInt i.width.bytes
  else if i.endsBlock = true ∧ i.jmpOp = .call then helperBytes c i v.st
  else []

section Bounds

variable {insns : List Insn} {c : Config} {idx : Nat} {st st' : AbsState} {t t' : Translator}
  {ops : List Op} {a : StackBytes} {kw : Width}

theorem mem_pointerBytes {r : RegInfo} {off : Int} {n : Nat} (h : a ∈ pointerBytes r off n) :
    r.tag = .stack ∧ r.offKnown = true ∧ a = ⟨r.off + off, n⟩ := by
  unfold pointerBytes at h
  split at h
  · rename_i hr
    exact ⟨hr.1, hr.2, List.mem_singleton.mp h⟩
  · cases h

/-- An access that starts in the frame stays in it when it ends below `r10`. -/
theorem inFrame_iff (h : -bpfStackSize ≤ a.off) : a.InFrame ↔ a.off + a.nbytes ≤ 0 :=
  and_iff_right h

/-! ## Keys and values -/

theorem constKey_lo {kp : RegInfo} {k : Nat} (h : constKey kp st = some k) :
    (-bpfStackSize : Int) ≤ kp.off := by
  unfold constKey at h
  split at h
  · cases h
  · dsimp only at h
    split at h
    · omega
    · cases h

theorem KeyRead.lo {kp : RegInfo} (h : KeyRead c t kp kw t' ops) (htag : kp.tag = .stack) :
    (-bpfStackSize : Int) ≤ kp.off := by
  cases h with
  | stack _ _ _ hhi => omega
  | region hne => exact absurd htag hne

theorem SlotRead.lo {mi : MapInfo} {kp : RegInfo} (h : SlotRead c mi kp st kw t t' ops)
    (htag : kp.tag = .stack) : (-bpfStackSize : Int) ≤ kp.off := by
  cases h with
  | const hkey => exact constKey_lo hkey
  | computed _ _ hread => exact hread.lo htag

theorem ValueCopy.lo {vp : RegInfo} {mr : MapRef} {dst : Operand}
    (h : ValueCopy c t vp mr dst t' ops) (htag : vp.tag = .stack) :
    (-bpfStackSize : Int) ≤ vp.off := by
  cases h with
  | stack _ _ _ _ hhi => omega
  | wide hne => exact absurd htag hne
  | bytes hne => exact absurd htag hne

theorem SlotArms.lo {mr : MapRef} {vp : RegInfo} {tTag mark : Nat} {insert : Bool}
    {is : List Nat} {os : List (List Op)} (h : SlotArms c t mr vp kw tTag mark insert is os)
    (his : is ≠ []) (htag : vp.tag = .stack) : (-bpfStackSize : Int) ≤ vp.off := by
  cases h with
  | nil => exact absurd rfl his
  | cons hfirst _ =>
    obtain ⟨_, _, _, _, _, hcopy, _⟩ := hfirst
    exact hcopy.lo htag

/-! ## Calls -/

theorem mapOf_mem {maps : List MapInfo} {r : RegInfo} {mr : MapRef} (h : mapOf maps r = some mr) :
    mr.mi ∈ maps := List.mem_of_getElem? (mapOf_some h).2.2

theorem LookupCall.lo {mr : MapRef} {arms : List Arm} (h : LookupCall c idx st t t' ops mr arms)
    (htag : (st.reg 2).tag = .stack) : (-bpfStackSize : Int) ≤ (st.reg 2).off := by
  have hscan := h.scan
  split at hscan
  · obtain ⟨_, _, _, hread, _⟩ := emitArrayLookup_accepts hscan
    exact hread.lo htag
  · obtain ⟨_, _, _, hread, _⟩ := emitTaggedLookup_accepts hscan
    exact hread.lo htag

theorem UpdateCall.lo {r : Option (List Arm)} {mr : MapRef} (h : UpdateCall c idx st t r st' t' ops)
    (hmap : mapOf c.maps (st.reg 1) = some mr) (hslots : 0 < mr.mi.slotsBudget) :
    ((st.reg 2).tag = .stack → (-bpfStackSize : Int) ≤ (st.reg 2).off) ∧
      (updateSkipped st mr.mi = false → (st.reg 3).tag = .stack →
        (-bpfStackSize : Int) ≤ (st.reg 3).off) := by
  cases h with
  | outOfRange hmap' harray hkey hk =>
    obtain rfl := Option.some.inj (hmap.symm.trans hmap')
    refine ⟨fun _ => constKey_lo hkey, fun hskip => ?_⟩
    simp [updateSkipped, harray, hkey, hk] at hskip
  | array hmap' _ _ _ _ _ hscan =>
    obtain rfl := Option.some.inj (hmap.symm.trans hmap')
    obtain ⟨_, _, _, _, hread, _, hcopy, _⟩ := emitArrayUpdate_accepts hscan
    exact ⟨fun htag => hread.lo htag, fun _ htag => hcopy.lo htag⟩
  | hash hmap' _ _ _ hscan =>
    obtain rfl := Option.some.inj (hmap.symm.trans hmap')
    obtain ⟨_, _, _, _, _, hread, _, _, _, hovers, _⟩ := emitTaggedUpdate_accepts hscan
    have hne : List.range mr.mi.nslots ≠ [] := by
      have := MapInfo.nslots_pos hslots
      simp; omega
    exact ⟨fun htag => hread.lo htag, fun _ htag => hovers.lo hne htag⟩

theorem helperBytes_lo {i : Insn} {r : Option (List Arm)}
    (hslots : ∀ mi ∈ c.maps, 0 < mi.slotsBudget)
    (h : (translateCall idx i st).Accepts c t (r, st') t' ops) (ha : a ∈ helperBytes c i st) :
    -bpfStackSize ≤ a.off := by
  unfold helperBytes at ha
  split at ha
  · cases ha
  rename_i mr hmap
  have hpos := hslots _ (mapOf_mem hmap)
  have hbounds : ((st.reg 2).tag = .stack → (-bpfStackSize : Int) ≤ (st.reg 2).off) ∧
      (i.imm.toInt = bpfFuncMapUpdateElem → updateSkipped st mr.mi = false →
        (st.reg 3).tag = .stack → (-bpfStackSize : Int) ≤ (st.reg 3).off) := by
    rcases translateCall_accepts h with ⟨himm, _, _, _, hcall, _⟩ | ⟨_, hcall⟩
    · exact ⟨hcall.lo, fun himm' => by rw [himm] at himm'; cases himm'⟩
    · exact ⟨(hcall.lo hmap hpos).1, fun _ => (hcall.lo hmap hpos).2⟩
  rcases List.mem_append.mp ha with ha | ha
  · obtain ⟨htag, _, rfl⟩ := mem_pointerBytes ha
    simpa using hbounds.1 htag
  · split at ha
    · rename_i hwrites
      obtain ⟨htag, _, rfl⟩ := mem_pointerBytes ha
      simpa using hbounds.2 hwrites.1 hwrites.2 htag
    · cases ha

/-! ## Loads and stores -/

theorem StackAccess.lo {base : RegInfo} {i : Insn} {sh : Nat} (h : StackAccess t base i sh) :
    (-bpfStackSize : Int) ≤ base.off + i.off.toInt := by
  have := h.le
  simp only [slotOf] at this
  omega

/-- An accepted stack access starts in the frame. -/
theorem stackAccesses_lo {v : Visit} (hslots : ∀ mi ∈ c.maps, 0 < mi.slotsBudget)
    (hv : v.Accepted insns c) (ha : a ∈ stackAccesses insns c v) : -bpfStackSize ≤ a.off := by
  unfold stackAccesses at ha
  dsimp only at ha
  have hends : ∀ {cls : Cls}, (insnAt insns v.idx).cls = cls → cls ≠ .jmp → cls ≠ .jmp32 →
      (insnAt insns v.idx).endsBlock = false := by
    intro cls hcls hj hj32
    simp [Insn.endsBlock, Insn.isJmp, hcls, hj, hj32]
  cases hv with
  | insn hno h =>
    split at ha
    · rename_i hcls
      obtain ⟨htag, _, rfl⟩ := mem_pointerBytes ha
      obtain ⟨sh, hacc, _⟩ := translateOne_reload rfl (by simp [Insn.isReload, hcls, htag]) h
      exact hacc.lo
    · split at ha
      · rename_i hcls
        obtain ⟨htag, _, rfl⟩ := mem_pointerBytes ha
        obtain ⟨sh, hacc⟩ := translateOne_spill rfl
          (by rcases hcls with hc | hc <;> simp [Insn.isSpill, hc, htag]) h
        exact hacc.lo
      · rw [if_neg (by simp [hno])] at ha
        cases ha
  | term hyes h =>
    rw [if_neg fun hc => by simp [hends hc] at hyes,
      if_neg fun hc => by rcases hc with hc | hc <;> simp [hends hc] at hyes] at ha
    split at ha
    · rename_i hcall
      cases h with
      | call _ _ hc => exact helperBytes_lo hslots hc ha
      | fall hno => rw [Nat.add_sub_cancel, hyes] at hno; cases hno
      | exit _ hop => rw [Nat.add_sub_cancel, hcall.2] at hop; cases hop
      | ja _ hop => rw [Nat.add_sub_cancel, hcall.2] at hop; cases hop
      | cond hbr =>
        rw [Nat.add_sub_cancel] at hbr
        simp [Insn.branches, hcall.2] at hbr
    · cases ha

/-- Of every stack access of an accepted program: it lies in the frame exactly when it ends
at or below `r10`. -/
theorem stack_access_inFrame_iff {mods : List (List Rule)}
    (hslots : ∀ mi ∈ c.maps, 0 < mi.slotsBudget)
    (h : (translateProgram insns).Accepts c .init mods t' ops) {v : Visit}
    (hv : v ∈ visits insns c) (ha : a ∈ stackAccesses insns c v) :
    a.InFrame ↔ a.off + a.nbytes ≤ 0 :=
  inFrame_iff (stackAccesses_lo hslots (visits_accepted h hv) ha)

/-- `*(u64 *)(r10 - 8) = 5; exit`. -/
def spillProgram : List Insn := [⟨0x7a, 10, 0, -8, 5⟩, ⟨0x95, 0, 0, 0, 0⟩]

theorem spillProgram_inFrame : (⟨-8, 8⟩ : StackBytes).InFrame := by
  obtain ⟨mods, hmods⟩ :
      ∃ mods, (translateProgram spillProgram).result xdpConfig .init = some mods := ⟨_, rfl⟩
  obtain ⟨_, _, h⟩ := accepts_of_result hmods
  exact (stack_access_inFrame_iff (v := ⟨0, entryState, .init⟩) (by simp [xdpConfig]) h
    (List.mem_of_getElem? (i := 0) rfl) (by decide)).mpr (by decide)

/-- `*(u64 *)(r10 + 0) = 5; exit`. -/
def aboveFrameProgram : List Insn := [⟨0x7a, 10, 0, 0, 5⟩, ⟨0x95, 0, 0, 0, 0⟩]

/-- The store covers the eight bytes from `r10` up. -/
theorem aboveFrameProgram_counterexample :
    ∃ mods, (translateProgram aboveFrameProgram).result xdpConfig .init = some mods ∧
      ∃ v ∈ visits aboveFrameProgram xdpConfig,
        ⟨0, 8⟩ ∈ stackAccesses aboveFrameProgram xdpConfig v ∧ ¬(⟨0, 8⟩ : StackBytes).InFrame :=
  ⟨_, rfl, ⟨0, entryState, .init⟩, List.mem_of_getElem? (i := 0) rfl, by decide, by decide⟩

end Bounds

end Ect
