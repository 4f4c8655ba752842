-- SUMMARY: The stack headers of a run against a byte-addressed frame after the same stores.
import Ect.Ir.Cells
import Ect.Lowering.Effects

/-!
# The frame

The lowered program keeps each stack slot in a header of its own, keyed by where the
slot starts. A byte-addressed frame is what the stores of a run leave when they are
made one after the other. The two agree on every read that no later store from
another start has disturbed.
-/

namespace Ect

open TransM LittleEndian

/-! ## The byte-addressed frame -/

/-- One store to the stack: where the slot starts below `r10`, and the value that was
stored, truncated to the width of the store, if there was one. -/
structure FrameStore where
  slot : Nat
  width : Width
  val : Option Nat
  deriving DecidableEq, Repr

/-- Where in the frame a slot starts. -/
def frameIndex (slot : Nat) : Nat := bpfStackSize - slot

/-- The frame after stores, the newest first. -/
def frameAfter : List FrameStore → Nat → Cell
  | [] => fun _ => none
  | s :: ss => writeCells (frameAfter ss) (frameIndex s.slot) (storeCells s.width s.val)

/-- The newest store to a slot. -/
def lastStore (k : Nat) (ss : List FrameStore) : Option FrameStore := ss.find? (·.slot == k)

/-- The value the slot's header holds after the store. -/
def FrameStore.crVal (s : FrameStore) : CrVal :=
  match s.val with
  | some n => .int s.width n
  | none => .error

/-- The bytes of the store lie beside the `n` bytes from the slot `k`. -/
def FrameStore.Beside (s : FrameStore) (k n : Nat) : Prop :=
  frameIndex s.slot + s.width.bytes ≤ frameIndex k ∨ frameIndex k + n ≤ frameIndex s.slot

instance (s : FrameStore) (k n : Nat) : Decidable (s.Beside k n) :=
  inferInstanceAs (Decidable (_ ∨ _))

/-- Since the newest store to the slot `k`, no store touched the `n` bytes from there. -/
def Undisturbed (k n : Nat) : List FrameStore → Prop
  | [] => True
  | s :: ss => s.slot = k ∨ s.Beside k n ∧ Undisturbed k n ss

instance decidableUndisturbed (k n : Nat) : (ss : List FrameStore) → Decidable (Undisturbed k n ss)
  | [] => inferInstanceAs (Decidable True)
  | s :: ss =>
    have := decidableUndisturbed k n ss
    inferInstanceAs (Decidable (s.slot = k ∨ s.Beside k n ∧ Undisturbed k n ss))

section Frame

variable {k n v : Nat} {s : FrameStore} {ss : List FrameStore}

theorem lastStore_cons_self (s : FrameStore) (ss : List FrameStore) :
    lastStore s.slot (s :: ss) = some s := by simp [lastStore]

theorem lastStore_cons_ne (h : s.slot ≠ k) : lastStore k (s :: ss) = lastStore k ss := by
  simp [lastStore, h]

/-- What an undisturbed slot last received is what the frame holds there. -/
theorem frameAfter_read (hlast : lastStore k ss = some s) (hval : s.val = some v)
    (hund : Undisturbed k n ss) (hn : n ≤ s.width.bytes) :
    readCells (frameAfter ss) (frameIndex k) n = some (leBytes n v) := by
  induction ss with
  | nil => simp [lastStore] at hlast
  | cons s' ss ih =>
    by_cases hs : s'.slot = k
    · subst hs
      rw [lastStore_cons_self] at hlast
      obtain rfl := Option.some.inj hlast
      rw [frameAfter, hval, readCells_storeCells _ _ hn]
    · rw [lastStore_cons_ne hs] at hlast
      obtain ⟨hbeside, hrest⟩ := hund.resolve_left hs
      rw [frameAfter, readCells_writeCells_disjoint, ih hlast hrest]
      rw [storeCells_length]
      exact hbeside.symm

end Frame

/-! ## The stores of a run -/

/-- The store the instruction at a point makes to the stack. -/
def storeAt (insns : List Insn) (p : Point) : Option FrameStore :=
  let i := insnAt insns p.idx
  if i.isSpill p.st then
    some ⟨(slotOf (p.st.reg i.dst) i).toNat, i.width,
      if i.cls = .stx then ((p.σ.hdr (hReg i.src)).asInt .w64).map (· % 2 ^ i.width.bits)
      else some (i.imm64 % 2 ^ i.width.bits)⟩
  else none

/-- The stores a run made at the points passed so far, the newest first. -/
def frameStores (insns : List Insn) (ps : List Point) : List FrameStore :=
  (ps.filterMap (storeAt insns)).reverse

section Stores

variable {insns : List Insn} {c : Config} {len : Nat → Nat} {pre : List Point} {p q : Point}

theorem frameStores_quiet (h : storeAt insns p = none) :
    frameStores insns (pre ++ [p]) = frameStores insns pre := by
  simp [frameStores, h]

theorem frameStores_store {s : FrameStore} (h : storeAt insns p = some s) :
    frameStores insns (pre ++ [p]) = s :: frameStores insns pre := by
  simp [frameStores, h]

theorem storeAt_stx {i : Insn} (hi : insnAt insns p.idx = i) (hcls : i.cls = .stx)
    (htag : (p.st.reg i.dst).tag = .stack) :
    storeAt insns p = some ⟨(slotOf (p.st.reg i.dst) i).toNat, i.width,
      ((p.σ.hdr (hReg i.src)).asInt .w64).map (· % 2 ^ i.width.bits)⟩ := by
  subst hi
  simp [storeAt, Insn.isSpill, hcls, htag]

theorem storeAt_st {i : Insn} (hi : insnAt insns p.idx = i) (hcls : i.cls = .st)
    (htag : (p.st.reg i.dst).tag = .stack) :
    storeAt insns p = some ⟨(slotOf (p.st.reg i.dst) i).toNat, i.width,
      some (i.imm64 % 2 ^ i.width.bits)⟩ := by
  subst hi
  simp [storeAt, Insn.isSpill, hcls, htag]

/-- A stored value fits the width of the store. -/
theorem storeAt_val_lt {s : FrameStore} {v : Nat} (h : storeAt insns p = some s)
    (hv : s.val = some v) : v < 2 ^ s.width.bits := by
  simp only [storeAt] at h
  split at h
  · obtain rfl := Option.some.inj h
    dsimp only at hv ⊢
    split at hv
    · obtain ⟨n, _, rfl⟩ := Option.map_eq_some_iff.mp hv
      exact Nat.mod_lt _ (Nat.two_pow_pos _)
    · obtain rfl := Option.some.inj hv
      exact Nat.mod_lt _ (Nat.two_pow_pos _)
  · cases h

theorem frameStores_val_lt {s : FrameStore} {k v : Nat}
    (h : lastStore k (frameStores insns pre) = some s) (hv : s.val = some v) :
    v < 2 ^ s.width.bits := by
  have hmem := List.mem_of_find?_eq_some h
  simp only [frameStores, List.mem_reverse, List.mem_filterMap] at hmem
  obtain ⟨p, _, hp⟩ := hmem
  exact storeAt_val_lt hp hv

theorem storeAt_of_jmp (h : (insnAt insns p.idx).endsBlock = true) : storeAt insns p = none := by
  have hjmp := Insn.isJmp_of_endsBlock h
  simp only [Insn.isJmp, Bool.or_eq_true, beq_iff_eq] at hjmp
  simp only [storeAt, Insn.isSpill]
  rcases hjmp with hc | hc <;> simp [hc]

/-! ## The invariant -/

/-- Each slot stored to has its header, which holds what the slot last received, and no
other stack header holds anything. -/
structure FrameInv (insns : List Insn) (pre : List Point) (p : Point) : Prop where
  wf : p.t.WF
  held : ∀ k s, lastStore k (frameStores insns pre) = some s →
    ∃ h, p.t.stackHdrOf k = some h ∧ p.σ.hdr h = s.crVal
  only : ∀ h, hStackBase ≤ h → p.σ.hdr h ≠ .uninit →
    ∃ k s, p.t.stackHdrOf k = some h ∧ lastStore k (frameStores insns pre) = some s

/-- The headers below the stack headers. -/
theorem lt_hStackBase_of_isScratch {h : Nat} (hs : IsScratch h) : h < hStackBase :=
  lt_of_lt_of_le hs.2 (by decide)

theorem hReg_lt_hStackBase (r : Fin 16) : hReg r < hStackBase := by
  have := r.isLt
  simp only [hReg, hStackBase]
  omega

theorem hPc_lt_hStackBase : hPc < hStackBase := by decide

/-- A step that stores nothing to the stack. -/
theorem FrameInv.keep (hinv : FrameInv insns pre p) (hno : storeAt insns p = none)
    (hg : p.t.Grows q.t) (hhdr : ∀ h, hStackBase ≤ h → q.σ.hdr h = p.σ.hdr h) :
    FrameInv insns (pre ++ [p]) q := by
  refine ⟨hg.wf hinv.wf, fun k s hlast => ?_, fun h hbase hne => ?_⟩
  · rw [frameStores_quiet hno] at hlast
    obtain ⟨h, hk, hv⟩ := hinv.held k s hlast
    exact ⟨h, hg.keeps hk, by rw [hhdr h (hinv.wf.range hk).1, hv]⟩
  · rw [hhdr h hbase] at hne
    obtain ⟨k, s, hk, hlast⟩ := hinv.only h hbase hne
    exact ⟨k, s, hg.keeps hk, by rw [frameStores_quiet hno, hlast]⟩

/-- A step that stores to a slot. -/
theorem FrameInv.spill {s : FrameStore} {sh : Nat} (hinv : FrameInv insns pre p)
    (hs : storeAt insns p = some s) (hg : p.t.Grows q.t) (hsh : q.t.stackHdrOf s.slot = some sh)
    (hval : q.σ.hdr sh = s.crVal)
    (hrest : ∀ h, hStackBase ≤ h → h ≠ sh → q.σ.hdr h = p.σ.hdr h) :
    FrameInv insns (pre ++ [p]) q := by
  have hwf := hg.wf hinv.wf
  refine ⟨hwf, fun k s' hlast => ?_, fun h hbase hne => ?_⟩
  · rw [frameStores_store hs] at hlast
    by_cases hk : s.slot = k
    · subst hk
      rw [lastStore_cons_self] at hlast
      obtain rfl := Option.some.inj hlast
      exact ⟨sh, hsh, hval⟩
    · rw [lastStore_cons_ne hk] at hlast
      obtain ⟨h, hk', hv⟩ := hinv.held k s' hlast
      have hk'' := hg.keeps hk'
      have hneq : h ≠ sh := by
        rintro rfl
        exact hk (hwf.inj hsh hk'')
      exact ⟨h, hk'', by rw [hrest h (hwf.range hk'').1 hneq, hv]⟩
  · rw [frameStores_store hs]
    by_cases hneq : h = sh
    · subst hneq
      exact ⟨s.slot, s, hsh, lastStore_cons_self s _⟩
    · rw [hrest h hbase hneq] at hne
      obtain ⟨k, s', hk, hlast⟩ := hinv.only h hbase hne
      have hk' := hg.keeps hk
      have hkne : s.slot ≠ k := by
        rintro rfl
        rw [hsh] at hk'
        exact hneq (Option.some.inj hk').symm
      exact ⟨k, s', hk', by rw [lastStore_cons_ne hkne, hlast]⟩

/-! ## Moves -/

/-- Headers no operation writes. -/
theorem runOps_frame {T : Nat → Prop} {ops : List Op} {σ : State} (h : AllWrite T ops)
    (hT : ∀ k, T k → k < hStackBase) {k : Nat} (hk : hStackBase ≤ k) :
    (runOps len σ ops).hdr k = σ.hdr k :=
  runOps_hdr h len σ fun hTk => by have := hT k hTk; omega

theorem isResult_lt {k : Nat} (h : IsResult k) : k < hStackBase := by
  rcases h with rfl | h
  · exact hReg_lt_hStackBase 0
  · exact lt_hStackBase_of_isScratch h

theorem regOrScratch_lt {d : Fin 16} {k : Nat} (h : k = hReg d ∨ IsScratch k) : k < hStackBase := by
  rcases h with rfl | h
  · exact hReg_lt_hStackBase d
  · exact lt_hStackBase_of_isScratch h

theorem sameOffPc_frame {σ σ' : State} (h : σ.SameOffPc σ') {k : Nat} (hk : hStackBase ≤ k) :
    σ'.hdr k = σ.hdr k :=
  h.hdr k fun he => by have := hPc_lt_hStackBase; omega

theorem notSpill_of_cls {i : Insn} {st : AbsState} (hstx : i.cls ≠ .stx) (hst : i.cls ≠ .st) :
    i.isSpill st = false := by simp [Insn.isSpill, hstx, hst]

theorem storeAt_of_not_spill (h : (insnAt insns p.idx).isSpill p.st = false) :
    storeAt insns p = none := by simp [storeAt, h]

/-- Every move keeps the invariant. -/
theorem frame_step {j : Int} {st : AbsState} {t : Translator} {σ₁ : State}
    (hinv : FrameInv insns pre p) (hm : Moves insns c len p j st t σ₁) (ht : t.Grows q.t)
    (hσ : σ₁.SameOffPc q.σ) : FrameInv insns (pre ++ [p]) q := by
  -- a step that writes headers below the stack headers alone
  have hquiet : (insnAt insns p.idx).isSpill p.st = false → p.t.Grows t →
      (∀ k, hStackBase ≤ k → σ₁.hdr k = p.σ.hdr k) → FrameInv insns (pre ++ [p]) q :=
    fun hno hg hhdr => hinv.keep (storeAt_of_not_spill hno) (hg.trans ht) fun k hk => by
      rw [sameOffPc_frame hσ hk, hhdr k hk]
  have hends : (insnAt insns p.idx).endsBlock = true →
    (insnAt insns p.idx).isSpill p.st = false := by
    intro h
    have hjmp := Insn.isJmp_of_endsBlock h
    simp only [Insn.isJmp, Bool.or_eq_true, beq_iff_eq] at hjmp
    rcases hjmp with hc | hc <;> exact notSpill_of_cls (by simp [hc]) (by simp [hc])
  -- a step that stores to the slot whose header is `sh`
  have hspill : ∀ {sh : Nat} {s : FrameStore} {op : Op}, storeAt insns p = some s → p.t.Grows t →
      t.stackHdrOf s.slot = some sh → op.Into (· = sh) → σ₁ = runOps len p.σ [op] →
      (op.eval len p.σ).hdr sh = s.crVal → FrameInv insns (pre ++ [p]) q := by
    intro sh s op hs hg hsh hinto hσ₁ hval
    rw [runOps_cons, runOps_nil] at hσ₁
    subst hσ₁
    have hbase := ((hg.wf hinv.wf).range hsh).1
    refine hinv.spill hs (hg.trans ht) (ht.keeps hsh) ?_ fun k hk hne => ?_
    · rw [sameOffPc_frame hσ hbase, hval]
    · rw [sameOffPc_frame hσ hk]
      exact (hinto.sameBut len p.σ).hdr k hne
  cases hm with
  | insn h =>
    cases translateOne_effect h with
    | quiet hg hops hno =>
      exact hquiet hno hg fun k hk => runOps_frame hops (fun _ => lt_hStackBase_of_isScratch) hk
    | alu hg hcls hops =>
      obtain ⟨hinto, _⟩ := @aluOps_spec _ _ _ _ _ _ len _ 0 0 hops
      refine hquiet (notSpill_of_cls ?_ ?_) hg fun k hk =>
        runOps_frame (AllWrite.of_into hinto) (fun _ => regOrScratch_lt) hk
      all_goals rw [hcls]; split <;> decide
    | konst hg hld hv =>
      have hcls := Insn.cls_of_ldImm64 hld
      refine hquiet (notSpill_of_cls (by simp [hcls]) (by simp [hcls])) hg fun k hk =>
        runOps_frame (T := fun k => k = hReg (insnAt insns p.idx).dst ∨ IsScratch k)
          (by simp [setOp]) (fun _ => regOrScratch_lt) hk
    | forget hg hcls hinfo hops =>
      have hcls : (insnAt insns p.idx).cls = .ld ∨ (insnAt insns p.idx).cls = .ldx :=
        hcls.imp Insn.cls_of_ldImm64 id
      refine hquiet (notSpill_of_cls ?_ ?_) hg fun k hk =>
        runOps_frame hops (fun _ => regOrScratch_lt) hk
      all_goals rcases hcls with hc | hc <;> simp [hc]
    | reload hg hcls hacc =>
      refine hquiet (notSpill_of_cls (by simp [hcls]) (by simp [hcls])) hg fun k hk =>
        runOps_frame (T := fun k => k = hReg (insnAt insns p.idx).dst ∨ IsScratch k)
          (by simp) (fun _ => regOrScratch_lt) hk
    | packet hg hcls hops =>
      exact hquiet (notSpill_of_cls (by simp [hcls]) (by simp [hcls])) hg fun k hk =>
        runOps_frame hops (fun _ => isResult_lt) hk
    | spill hg hcls hacc =>
      refine hspill (storeAt_stx rfl hcls hacc.tag) hg hacc.hdr ?_ rfl ?_
      · exact rfl
      simp only [Op.eval, hdr, Operand.eval, FrameStore.crVal]
      cases (p.σ.hdr (hReg (insnAt insns p.idx).src)).asInt .w64 <;> simp
    | spillImm hg hcls hacc =>
      refine hspill (storeAt_st rfl hcls hacc.tag) hg hacc.hdr ?_ rfl ?_
      · exact rfl
      have hlt := (insnAt insns p.idx).imm64_lt
      have hmod : ((((insnAt insns p.idx).imm64 : Nat) : Int) % 2 ^ 64).toNat =
          (insnAt insns p.idx).imm64 := by omega
      simp only [Op.eval, Operand.eval_konst, hmod, FrameStore.crVal, BinOp.eval]
      simp
  | ja he hop => exact hquiet (hends he) (.refl _) fun _ _ => rfl
  | cond hbr hop h he =>
    obtain ⟨hscr, _⟩ := (@emitCondition_spec _ _ _ _ _ _ len) h
    have he : (insnAt insns p.idx).endsBlock = true := by
      simp only [Insn.branches, Bool.and_eq_true] at hbr
      exact hbr.1.1
    exact hquiet (hends he) (Grows.grows h) fun k hk =>
      runOps_frame (AllWrite.of_into hscr) (fun _ => lt_hStackBase_of_isScratch) hk
  | call he hop h =>
    have heff := translateCall_effect h
    exact hquiet (hends he) (Grows.grows h) fun k hk =>
      runOps_frame heff.writes (fun _ => isResult_lt) hk
  | @arms _ arm _ _ _ v he hop h harm =>
    have heff := translateCall_effect h
    have hmem := List.mem_of_find?_eq_some harm
    refine hquiet (hends he) (Grows.grows h) fun k hk => ?_
    rw [runOps_frame (heff.arms _ rfl arm hmem) (fun _ => isResult_lt) hk, State.setHdr_hdr,
      if_neg (by have := hPc_lt_hStackBase; omega),
      runOps_frame heff.writes (fun _ => isResult_lt) hk]

/-- Nothing is stored where a run starts. -/
theorem frameInv_entry {mem : Nat → Nat → Cell} (hwf : p.t.WF)
    (hσ : (entryRun insns mem).SameOffPc p.σ) : FrameInv insns [] p := by
  refine ⟨hwf, by simp [frameStores, lastStore], fun k hk hne => absurd ?_ hne⟩
  rw [sameOffPc_frame hσ hk]
  have hunused : ¬(10 ≤ k ∧ scanUsedRegs insns (k - 10) = true) := by
    rintro ⟨_, hused⟩
    simp only [scanUsedRegs, Bool.and_eq_true, decide_eq_true_eq] at hused
    have hlt := hused.1
    simp only [numBpfRegs, hStackBase] at hlt hk
    omega
  simp only [entryRun]
  rw [if_neg (by have := hPc_lt_hStackBase; omega), if_neg hunused]

/-! ## Reads -/

/-- A proper value in a slot's header is what the slot last received. -/
theorem FrameInv.read {t' : Translator} {k v h : Nat} {w : Width} (hinv : FrameInv insns pre p)
    (hg : p.t.Grows t') (hk : t'.stackHdrOf k = some h) (hv : p.σ.hdr h = .int w v) :
    ∃ s, lastStore k (frameStores insns pre) = some s ∧ s.width = w ∧ s.val = some v := by
  have hwf := hg.wf hinv.wf
  obtain ⟨k', s, hk', hlast⟩ := hinv.only h (hwf.range hk).1 (by rw [hv]; simp)
  obtain rfl := hwf.inj hk (hg.keeps hk')
  obtain ⟨h', hk'', hval⟩ := hinv.held k s hlast
  rw [hk'] at hk''
  obtain rfl := Option.some.inj hk''
  rw [hv, FrameStore.crVal] at hval
  refine ⟨s, hlast, ?_⟩
  cases hs : s.val with
  | none => rw [hs] at hval; cases hval
  | some n =>
    rw [hs] at hval
    obtain ⟨rfl, rfl⟩ := CrVal.int.inj hval
    exact ⟨rfl, rfl⟩

/-- The frame after the stores holds the number `v` in the `n` bytes of the slot `k`. -/
def FrameHolds (ss : List FrameStore) (k n v : Nat) : Prop :=
  (readCells (frameAfter ss) (frameIndex k) n).map leNat = some v

instance (ss : List FrameStore) (k n v : Nat) : Decidable (FrameHolds ss k n v) :=
  inferInstanceAs (Decidable (_ = _))

/-- The value an undisturbed slot last received is in the frame. -/
theorem frameHolds_of_lastStore {ss : List FrameStore} {k n v : Nat} {s : FrameStore}
    (hlast : lastStore k ss = some s) (hval : s.val = some v) (hund : Undisturbed k n ss)
    (hn : n ≤ s.width.bytes) (hlt : v < 256 ^ n) : FrameHolds ss k n v := by
  rw [FrameHolds, frameAfter_read hlast hval hund hn]
  simp only [Option.map_some, Option.some.injEq]
  exact leNat_leBytes_of_lt hlt

/-- A stack header read at `w` and widened to a proper value agrees with the frame. -/
theorem FrameInv.widened {t' : Translator} {k v h d : Nat} {w : Width} (hinv : FrameInv insns pre p)
    (hg : p.t.Grows t') (hk : t'.stackHdrOf k = some h)
    (hv : (runOps len p.σ [.cast w .w64 (hdr h) d]).hdr d = .int .w64 v)
    (hund : Undisturbed k w.bytes (frameStores insns pre)) :
    FrameHolds (frameStores insns pre) k w.bytes v := by
  rw [runOps_cons, runOps_nil] at hv
  simp only [Op.eval, hdr, Operand.eval] at hv
  cases hn : (p.σ.hdr h).asInt w with
  | none => rw [hn] at hv; simp at hv
  | some n =>
    have hh := CrVal.asInt_eq_some.mp hn
    obtain ⟨s, hlast, rfl, hval⟩ := hinv.read hg hk hh
    have hlt := frameStores_val_lt hlast hval
    have h64 := s.width.pow_bits_le
    rw [hn] at hv
    simp only [State.setHdr_hdr, if_true, CrVal.int.injEq, true_and] at hv
    rw [Nat.mod_eq_of_lt (by simp only [Width.bits_w64]; omega)] at hv
    subst hv
    exact frameHolds_of_lastStore hlast hval hund (le_refl _) (by rwa [Width.pow_bytes])

end Stores

/-! ## The theorem -/

section Reads

variable {insns : List Insn} {c : Config} {t' : Translator} {mods : List (List Rule)}
  {ops : List Op}

/-- The stores a run makes to the stack before its `n`-th point, the newest first. -/
def storesBefore (insns : List Insn) (c : Config) (len : Nat → Nat) (mem : Nat → Nat → Cell)
    (n : Nat) : List FrameStore :=
  frameStores insns ((runPoints insns c len mem).take n)

theorem frameInv_at (hlen : insns.length ≤ maxInsns)
    (h : (translateProgram insns).Accepts c .init mods t' ops) {len : Nat → Nat}
    {mem : Nat → Nat → Cell} {n : Nat} {q : Point} (hq : (runPoints insns c len mem)[n]? = some q) :
    FrameInv insns ((runPoints insns c len mem).take n) q :=
  (@runPoints_invariant _ _ _ _ (fun _ _ => True)) hlen h (fun _ _ hwf hσ => frameInv_entry hwf hσ)
    (fun hinv _ hm _ ht hσ => frame_step hinv hm ht hσ) hq fun _ _ _ _ => trivial

/-- In every run of an accepted program, a load from the stack or a key read of a map
helper that yields a proper value yields what the byte-addressed frame holds there, when
no store has disturbed the slot since its last store. -/
theorem stack_reads_match_frame (hlen : insns.length ≤ maxInsns)
    (h : (translateProgram insns).Accepts c .init mods t' ops) (len : Nat → Nat)
    (mem : Nat → Nat → Cell) {n : Nat} {q : Point}
    (hq : (runPoints insns c len mem)[n]? = some q) :
    (∀ {i : Insn} {k v : Nat} {st₁ : AbsState} {t₁ : Translator} {o : List Op},
      insnAt insns q.idx = i → i.isReload q.st = true →
      (translateOne q.idx insns q.st).Accepts c q.t (k, st₁) t₁ o →
      (runOps len q.σ o).hdr (hReg i.dst) = .int .w64 v →
      Undisturbed (slotOf (q.st.reg i.src) i).toNat i.width.bytes
        (storesBefore insns c len mem n) →
      FrameHolds (storesBefore insns c len mem n) (slotOf (q.st.reg i.src) i).toNat
        i.width.bytes v) ∧
    ∀ {idx tKey v : Nat} {kw : Width} {t₀ t₁ : Translator} {o : List Op},
      (q.st.reg 2).tag = .stack → q.t.Grows t₀ →
      (readMapKey idx (q.st.reg 2) kw).Accepts c t₀ (some tKey) t₁ o →
      (runOps len q.σ o).hdr tKey = .int .w64 v →
      Undisturbed (-(q.st.reg 2).off).toNat kw.bytes (storesBefore insns c len mem n) →
      FrameHolds (storesBefore insns c len mem n) (-(q.st.reg 2).off).toNat kw.bytes v := by
  have hinv := frameInv_at hlen h hq
  constructor
  · intro i k v st₁ t₁ o hi hreload hacc hv hund
    have hg := Grows.grows hacc
    obtain ⟨sh, hslot, rfl⟩ := translateOne_reload hi hreload hacc
    exact hinv.widened hg hslot.hdr hv hund
  · intro idx tKey v kw t₀ t₁ o htag hg₀ hacc hv hund
    obtain ⟨_, hkey, hread⟩ := readMapKey_accepts hacc
    obtain rfl := Option.some.inj hkey
    cases hread with
    | stack _ _ _ _ hsh _ hgrows => exact hinv.widened (hg₀.trans hgrows) hsh hv hund
    | region hne _ _ => exact absurd htag hne

/-- `*(u64 *)(r10 - 8) = 5; r0 = *(u64 *)(r10 - 8); exit`. -/
def reloadProgram : List Insn :=
  [⟨0x7a, 10, 0, -8, 5⟩, ⟨0x79, 0, 10, -8, 0⟩, ⟨0x95, 0, 0, 0, 0⟩]

theorem reloadProgram_matches_frame :
    FrameHolds (storesBefore reloadProgram xdpConfig (fun _ => 0) (fun _ _ => none) 1) 8 8 5 := by
  obtain ⟨mods, hmods⟩ :
      ∃ mods, (translateProgram reloadProgram).result xdpConfig .init = some mods := ⟨_, rfl⟩
  obtain ⟨_, _, h⟩ := accepts_of_result hmods
  exact (stack_reads_match_frame (by decide) h (fun _ => 0) (fun _ _ => none) (n := 1) rfl).1
    rfl (by decide) rfl (by decide) (by decide)

/-- `*(u64 *)(r10 - 8) = 1; *(u32 *)(r10 - 4) = 1; r0 = *(u64 *)(r10 - 8); exit`. -/
def overlapProgram : List Insn :=
  [⟨0x7a, 10, 0, -8, 1⟩, ⟨0x62, 10, 0, -4, 1⟩, ⟨0x79, 0, 10, -8, 0⟩, ⟨0x95, 0, 0, 0, 0⟩]

/-- The second store lies within the slot of the first. The load still yields 1, and the
frame holds `2 ^ 32 + 1`. -/
theorem overlapProgram_counterexample :
    ∃ mods, (translateProgram overlapProgram).result xdpConfig .init = some mods ∧
      ∃ (q : Point) (st : AbsState) (t : Translator) (o : List Op),
        (runPoints overlapProgram xdpConfig (fun _ => 0) fun _ _ => none)[2]? = some q ∧
        (insnAt overlapProgram q.idx).isReload q.st = true ∧
        (translateOne q.idx overlapProgram q.st).Accepts xdpConfig q.t (1, st) t o ∧
        (runOps (fun _ => 0) q.σ o).hdr (hReg 0) = .int .w64 1 ∧
        ¬FrameHolds (storesBefore overlapProgram xdpConfig (fun _ => 0)
        (fun _ _ => none) 2) 8 8 1 :=
  ⟨_, rfl, _, _, _, _, rfl, by decide, rfl, by decide, by decide⟩

end Reads

end Ect
