-- SUMMARY: Runs of few map operations on the region of a hash map answer as the map they stand in for.
import Mathlib
import Ect.Base.SlotBudget
import Ect.Lowering.Frame
import Ect.Maps.HashMaps

/-!
# Slot budgets of hash maps

A hash map models fewer slots than it has entries. Two runs that perform together no more
operations than there are slots can start from one content of its region: every emitted
lookup and update in them answers as the map itself does.
-/

namespace Ect

open TransM LittleEndian Ranges Slots

/-- A state of a map: at most `max_entries` entries, with keys and values of its sizes. -/
structure MapState (mi : MapInfo) extends BoundedMap Nat (List Byte) mi.maxEntries where
  key_lt : ∀ {k}, k ∈ keys → k < 256 ^ mi.keySize
  value_length : ∀ {k v}, get k = some v → v.length = mi.valueSize

section Regions

variable {mi : MapInfo} {E : List (Nat × List Byte)}

/-- Any row of entries is the table of some region, with either capacity byte. -/
theorem exists_region (htag : mi.tagged = true) (closed : Bool) (hlen : E.length ≤ mi.nslots)
    (hkeys : ∀ e ∈ E, e.1 < 256 ^ mi.keySize) (hvals : ∀ e ∈ E, e.2.length = mi.valueSize) :
    ∃ R : Nat → Byte, mi.table R = .ofEntries mi.nslots E ∧ mi.closed R = closed := by
  induction E using List.reverseRecOn with
  | nil =>
    refine ⟨fun x => if x = mi.fullOff ∧ closed = true then 1 else 0, ?_, ?_⟩
    · refine congrArg (SlotTable.mk mi.nslots) (funext fun i => ?_)
      by_cases hi : i < mi.nslots
      · have hne : i ≠ mi.fullOff := by
          simp only [MapInfo.fullOff, MapInfo.valueBase]
          omega
        simp [hi, MapInfo.slotOf, hne]
      · simp [hi]
    · cases closed <;> simp [MapInfo.closed]
  | append_singleton E e ih =>
    rw [List.length_append, List.length_singleton] at hlen
    obtain ⟨R, htable, hclosed⟩ := ih (by omega) (fun e' he' => hkeys e' (by simp [he']))
      fun e' he' => hvals e' (by simp [he'])
    have hi : E.length < mi.nslots := by omega
    have hv : e.2.length = mi.valueSize := hvals e (by simp)
    refine ⟨mi.writeSlot R E.length e.1 e.2, ?_, ?_⟩
    · rw [MapInfo.table_writeSlot htag hi hv (hkeys e (by simp)), htable,
        SlotTable.ofEntries_append hi]
    · rw [MapInfo.closed_writeSlot htag hi hv, hclosed]

end Regions

/-! ## Runs -/

section Runs

variable {insns : List Insn} {c : Config} {mr : MapRef} {R R' : Nat → Byte} {σ' : State}
  {op : MapOp Nat (List Byte)}

/-- An emitted call performs the operation on the map's region, which holds the bytes `R`,
and its block ends in `σ'`. The key and the value are held where the call points at them,
each at its own width, and the source of the value lies apart from the slot written. -/
inductive Performs (insns : List Insn) (c : Config) (mr : MapRef) (R : Nat → Byte) :
    MapOp Nat (List Byte) → State → Prop where
  | lookup {p : Point} {key : Nat} {σ' : State} (hcall : HashCall insns c p mr R key σ')
      (hop : (insnAt insns p.idx).isLookup = true) : Performs insns c mr R (.lookup key) σ'
  | update {p : Point} {key : Nat} {v : List Byte} {σ' : State}
      (hcall : HashCall insns c p mr R key σ') (hop : (insnAt insns p.idx).isUpdate = true)
      (hv : v.length = mr.mi.valueSize)
      (hpass : ValuePassed c p.t (regionLen (declaredRegions c)) p.σ (p.st.reg 3) v)
      (hapart : ∀ i, (mr.mi.table R).dest (mr.mi.closed R) key = some i →
        SourceApart c mr p.σ (p.st.reg 3) (mr.mi.valueOff i) (mr.mi.InSlot i)) :
      Performs insns c mr R (.update key v) σ'

/-- The operations of a run, each with the state after it: an operation finds the region as
the one before it left it. -/
inductive MapRun (insns : List Insn) (c : Config) (mr : MapRef) :
    (Nat → Byte) → List (MapOp Nat (List Byte) × State) → Prop where
  | nil {R : Nat → Byte} : MapRun insns c mr R []
  | cons {R R' : Nat → Byte} {op : MapOp Nat (List Byte)} {σ' : State}
      {rest : List (MapOp Nat (List Byte) × State)} (hop : Performs insns c mr R op σ')
      (hnext : σ'.Holds mr R') (hrest : MapRun insns c mr R' rest) :
      MapRun insns c mr R ((op, σ') :: rest)

/-- The state after an operation shows the result: the value's bytes where `r0` points, or
NULL; 0 or `-E2BIG`. -/
def Returned (mr : MapRef) (σ' : State) : MapResult (List Byte) → Prop
  | .found (some v) => ∃ off, off ≠ 0 ∧ σ'.hdr (hReg 0) = .int .w64 off ∧
      readCells (σ'.mem mr.region) off mr.mi.valueSize = some v
  | .found none => σ'.hdr (hReg 0) = .int .w64 0
  | .updated true => σ'.hdr (hReg 0) = .int .w64 0
  | .updated false => σ'.hdr (hReg 0) = .int .w64 (2 ^ 64 - 7)

theorem Performs.tagged (h : Performs insns c mr R op σ') : mr.mi.tagged = true := by
  cases h with
  | lookup hcall => exact hcall.hash
  | update hcall => exact hcall.hash

/-- Whatever bytes the region is said to hold, its table is the same. -/
theorem State.Holds.table_eq (htag : mr.mi.tagged = true) (h : σ'.Holds mr R)
    (h' : σ'.Holds mr R') :
    mr.mi.table R = mr.mi.table R' ∧ mr.mi.closed R = mr.mi.closed R' := by
  have hsame : ∀ x < mr.mi.length, R x = R' x := fun x hx =>
    Option.some.inj ((h x hx).symm.trans (h' x hx))
  exact ⟨MapInfo.table_congr htag hsame, MapInfo.closed_congr htag hsame⟩

/-- An emitted call answers as the table of the region does, and leaves the region with the
table after the operation. -/
theorem Performs.step (h : Performs insns c mr R op σ') (hnext : σ'.Holds mr R') :
    Returned mr σ' ((mr.mi.table R).step (mr.mi.closed R) op).1 ∧
      mr.mi.table R' = ((mr.mi.table R).step (mr.mi.closed R) op).2 ∧
      mr.mi.closed R' = mr.mi.closed R := by
  have htag := h.tagged
  cases h with
  | lookup hcall hop =>
    have hres := (hash_map_refines hcall).1 hop
    obtain ⟨htable, hclosed⟩ := (hcall.bytes.of_mem hres.mem).table_eq htag hnext
    refine ⟨?_, htable.symm, hclosed.symm⟩
    cases hres with
    | hit _ _ hget hr0 hne hvalue =>
      rw [SlotTable.step, hget]
      exact ⟨_, hne, hr0, hvalue⟩
    | miss _ hget hr0 =>
      rw [SlotTable.step, hget]
      exact hr0
  | update hcall hop hv hpass hapart =>
    cases (hash_map_refines hcall).2 hop _ hv hpass hapart with
    | stored hdest hbytes htable _ hclosed _ hr0 =>
      obtain ⟨htable', hclosed'⟩ := hbytes.table_eq htag hnext
      rw [SlotTable.step, hdest]
      exact ⟨hr0, htable'.symm.trans htable, hclosed'.symm.trans hclosed⟩
    | refused hdest hmem hr0 =>
      obtain ⟨htable', hclosed'⟩ := (hcall.bytes.of_mem hmem).table_eq htag hnext
      rw [SlotTable.step, hdest]
      exact ⟨hr0, htable'.symm, hclosed'.symm⟩

/-- The calls of a run answer as the table of the region they start from. -/
theorem MapRun.returned {run : List (MapOp Nat (List Byte) × State)}
    (h : MapRun insns c mr R run) : List.Forall₂ (Returned mr) (run.map Prod.snd)
      ((mr.mi.table R).run (mr.mi.closed R) (run.map Prod.fst)) := by
  induction h with
  | nil => exact .nil
  | cons hop hnext _ ih =>
    obtain ⟨hres, htable, hclosed⟩ := hop.step hnext
    rw [htable, hclosed] at ih
    exact .cons hres ih

end Runs

/-- The slot budget loses no map state. For a hash map with no more slots than entries, every
state of the map, and any two runs of operations that each perform at most half as many as
there are slots, one content of the map's region makes every emitted lookup and update of
both runs return what the map returns. -/
theorem slot_budget_keeps_map {mr : MapRef} (htag : mr.mi.tagged = true)
    (hslots : mr.mi.nslots ≤ mr.mi.maxEntries) (M : MapState mr.mi)
    {ops₁ ops₂ : List (MapOp Nat (List Byte))} (h₁ : ops₁.length ≤ mr.mi.nslots / 2)
    (h₂ : ops₂.length ≤ mr.mi.nslots / 2) :
    ∃ R : Nat → Byte, ∀ (insns : List Insn) (c : Config)
      (run : List (MapOp Nat (List Byte) × State)), MapRun insns c mr R run →
      run.map Prod.fst = ops₁ ∨ run.map Prod.fst = ops₂ →
      List.Forall₂ (Returned mr) (run.map Prod.snd) (M.run (run.map Prod.fst)) := by
  obtain ⟨E, hlen, hE, htracks₁, htracks₂⟩ := exists_tracking M.toBoundedMap hslots
    (show ops₁.length + ops₂.length ≤ mr.mi.nslots by omega)
  obtain ⟨R, htable, hclosed⟩ := exists_region htag (decide (M.room = 0)) hlen
    (fun e he => M.key_lt (BoundedMap.mem_keys_of_get (hE e he)))
    fun e he => M.value_length (hE e he)
  refine ⟨R, fun insns c run hrun hops => ?_⟩
  have hreturned := hrun.returned
  rw [htable, hclosed] at hreturned
  rcases hops with hops | hops
  · rw [hops, htracks₁.run] at hreturned
    rwa [hops]
  · rw [hops, htracks₂.run] at hreturned
    rwa [hops]

/-- A hash map of 64 entries with two slots. -/
def twoSlotRef : MapRef := ⟨0, ⟨"flows", 1, 4, 8, 64, 2⟩⟩

/-- The map without entries. -/
def emptyMapState : MapState twoSlotRef.mi where
  get _ := none
  keys := ∅
  mem_keys := by simp
  card_le := by simp
  key_lt h := by simp at h
  value_length h := by cases h

/-- One program adds an entry to the empty map, the other looks it up. -/
theorem twoSlot_keeps_map :
    ∃ R : Nat → Byte, ∀ (insns : List Insn) (c : Config)
      (run : List (MapOp Nat (List Byte) × State)), MapRun insns c twoSlotRef R run →
      run.map Prod.fst = [.update 7 (leBytes 8 1)] ∨ run.map Prod.fst = [.lookup 7] →
      List.Forall₂ (Returned twoSlotRef) (run.map Prod.snd)
        (emptyMapState.run (run.map Prod.fst)) :=
  slot_budget_keeps_map rfl (by decide) emptyMapState (by decide) (by decide)

/-- `r2 = 7; *(u64 *)(r10 - 8) = r2; r2 = r10 - 8; r0 = bpf_map_lookup_elem(map, r2); exit`,
where the keys of the map have four bytes. -/
def wideKeyProgram : List Insn :=
  [⟨0xb7, 2, 0, 0, 7⟩, ⟨0x7b, 10, 2, -8, 0⟩, ⟨0xbf, 2, 10, 0, 0⟩, ⟨0x07, 2, 0, 0, -8⟩,
    ⟨0x18, 1, 1, 0, 0⟩, ⟨0, 0, 0, 0, 0⟩, ⟨0x85, 0, 0, 0, 1⟩, ⟨0x95, 0, 0, 0, 0⟩]

def wideKeyConfig : Config := ⟨ctxXdpMd, [twoSlotRef.mi], fun i => if i = 4 then some 0 else none⟩

/-- The map with one entry, at key 7. -/
def oneEntryState : MapState twoSlotRef.mi where
  get k := if k = 7 then some (leBytes 8 1) else none
  keys := {7}
  mem_keys := by simp
  card_le := by decide
  key_lt h := by
    rw [Finset.mem_singleton.mp h]
    decide
  value_length h := by
    split at h
    · obtain rfl := Option.some.inj h
      exact leBytes_length 8 1
    · cases h

/-- The regions when that of the map holds `R`. -/
def wideKeyMem (R : Nat → Byte) : Nat → Nat → Cell :=
  fun r x => some (if r = twoSlotRef.region then R x else 0)

def wideKeyEntry (R : Nat → Byte) : State :=
  runRules (regionLen (declaredRegions wideKeyConfig)) (State.initial (wideKeyMem R))
    (preamble (scanUsedRegs wideKeyProgram))

/-- Before the call. -/
def wideKeyPoint (R : Nat → Byte) : Point :=
  (termPoints wideKeyProgram wideKeyConfig (regionLen (declaredRegions wideKeyConfig)) 7
    ⟨0, entryState, .init, wideKeyEntry R⟩).headD ⟨0, .init, .init, State.initial fun _ _ => none⟩

theorem wideKeyProgram_isBlock : IsBlock wideKeyProgram (fun k => k == 0 || k == 7) 0 0 7 where
  start_eq := rfl
  end_eq := rfl
  start_lead := rfl
  start_lt := by decide
  end_le := by decide
  end_lead := fun _ => ⟨rfl, rfl⟩
  inner k hlo hhi := by
    simp only [Bool.or_eq_false_iff, beq_eq_false_iff_ne]
    omega

theorem wideKeyPoint_mem (R : Nat → Byte) : wideKeyPoint R ∈
    termPoints wideKeyProgram wideKeyConfig (regionLen (declaredRegions wideKeyConfig)) 7
      ⟨0, entryState, .init, wideKeyEntry R⟩ := by
  have hpoints : termPoints wideKeyProgram wideKeyConfig
      (regionLen (declaredRegions wideKeyConfig)) 7 ⟨0, entryState, .init, wideKeyEntry R⟩ =
        [wideKeyPoint R] := by cbv
  rw [hpoints]
  exact List.mem_singleton_self _

/-- The frame holds the key 7 where `r2` points, and the map has an entry there. The key was
stored as a part of a wider number, so the lookup misses whatever the region holds. -/
theorem wideKeyProgram_counterexample :
    (∃ mods, (translateProgram wideKeyProgram).result wideKeyConfig .init = some mods) ∧
      oneEntryState.run [.lookup 7] = [.found (some (leBytes 8 1))] ∧
      ∀ R : Nat → Byte,
        (runPoints wideKeyProgram wideKeyConfig (regionLen (declaredRegions wideKeyConfig))
          (wideKeyMem R))[5]? = some (wideKeyPoint R) ∧
        (insnAt wideKeyProgram (wideKeyPoint R).idx).isLookup = true ∧
        mapOf wideKeyConfig.maps ((wideKeyPoint R).st.reg 1) = some twoSlotRef ∧
        (wideKeyPoint R).σ.Holds twoSlotRef R ∧
        FrameHolds (storesBefore wideKeyProgram wideKeyConfig
          (regionLen (declaredRegions wideKeyConfig)) (wideKeyMem R) 5) 8 4 7 ∧
        ∃ σ', BlockReaches wideKeyProgram wideKeyConfig (regionLen (declaredRegions wideKeyConfig))
            (wideKeyPoint R) σ' ∧
          σ'.hdr (hReg 0) = .int .w64 0 ∧
          ¬Returned twoSlotRef σ' (.found (some (leBytes 8 1))) := by
  refine ⟨Option.isSome_iff_exists.mp (by decide +kernel), rfl, fun R => ?_⟩
  obtain ⟨⟨mods, blockIn'⟩, hres⟩ : ∃ r, (translateBlock wideKeyProgram
      (fun k => k == 0 || k == 7) 0 entryStates).result wideKeyConfig .init = some r :=
    Option.isSome_iff_exists.mp (by decide +kernel)
  obtain ⟨_, _, h⟩ := accepts_of_result hres
  have hreaches : BlockReaches wideKeyProgram wideKeyConfig
      (regionLen (declaredRegions wideKeyConfig)) (wideKeyPoint R)
      (runModules (regionLen (declaredRegions wideKeyConfig)) (wideKeyEntry R) mods) :=
    ⟨Translator.init_wf, wideKeyProgram_isBlock, h, rfl, wideKeyPoint_mem R, rfl⟩
  have hlookup : (insnAt wideKeyProgram (wideKeyPoint R).idx).isLookup = true := by cbv
  have hmap : mapOf wideKeyConfig.maps ((wideKeyPoint R).st.reg 1) = some twoSlotRef := by cbv
  -- the slot's header holds the key, but not as a number of four bytes
  have hheld : heldKey wideKeyConfig (wideKeyPoint R).t (regionLen (declaredRegions wideKeyConfig))
      (wideKeyPoint R).σ ((wideKeyPoint R).st.reg 2) .w32 = none := by cbv
  have hr0 := hreaches.lookup_error (by decide) hlookup hmap rfl hheld
  have hstores : storesBefore wideKeyProgram wideKeyConfig
      (regionLen (declaredRegions wideKeyConfig)) (wideKeyMem R) 5 = [⟨8, .w64, some 7⟩] := by cbv
  refine ⟨by cbv, hlookup, hmap, fun x _ => ?_, by rw [hstores]; decide, _, hreaches, hr0, ?_⟩
  · have hmem : (wideKeyPoint R).σ.mem twoSlotRef.region x = wideKeyMem R twoSlotRef.region x := by
      cbv
    rw [hmem, wideKeyMem, if_pos rfl]
  · rintro ⟨off, hne, hoff, _⟩
    rw [hr0] at hoff
    exact hne (CrVal.int.inj hoff).2.symm

end Ect
