-- SUMMARY: Two programs of packet loads that return different values are told apart by what their chains show.
import Ect.Lowering.Regions

/-!
# Packet loads

A packet load that reaches past the packet aborts the program with 0, while the
emitted load leaves the modelled part of the packet and rejects the run. The two
differ, but never so that a difference between two programs goes unseen, unless both
runs read beyond the part of the packet that is modelled.
-/

namespace Ect

open TransM PcMachine LittleEndian Machine

/-! ## Programs on a packet -/

/-- A packet load, or an instruction on registers of one slot. -/
def Insn.isFilter (i : Insn) : Bool := i.isRegional && i.cls != .ldx && i.cls !=
    .stx && i.cls != .st &&
  !i.isLdImm64

def isFilterProgram (insns : List Insn) : Bool := insns.all Insn.isFilter

/-- The packet as the bytes of its region. -/
def packetMem (pkt : List Byte) : Nat → Nat → Byte :=
  fun r k => if r = regionPkt then pkt.getD k 0 else 0

/-- The machine on a packet, whose end bounds every load. -/
def onPacket (insns : List Insn) (ctx : CtxLayout) (pkt : List Byte) (fuel : Nat) :
    Option (End Machine Halt) :=
  runFor (Machine.step insns ctx fun _ => pkt.length) fuel 0 (Machine.entry (packetMem pkt))

/-- The loads of a run and the 32-bit value it returns. A load past the packet's end is
the last one, and aborts with 0. -/
def returned : End Machine Halt → Option (List Access × Nat)
  | .exit m => some (m.log, (m.regs 0).toNat % 2 ^ 32)
  | .stop (.overrun log) => some (log, 0)
  | _ => none

/-- On the packet, the program makes the loads `log` and returns `v`. -/
def Returns (insns : List Insn) (ctx : CtxLayout) (pkt : List Byte) (log : List Access)
    (v : Nat) : Prop :=
  ∃ fuel, (onPacket insns ctx pkt fuel).bind returned = some (log, v)

/-- A run that returns exits or aborts. -/
theorem Returns.cases {insns : List Insn} {ctx : CtxLayout} {pkt : List Byte} {log : List Access}
    {v : Nat} (h : Returns insns ctx pkt log v) :
    ∃ fuel, (∃ m, onPacket insns ctx pkt fuel = some (.exit m) ∧ log = m.log ∧
        v = (m.regs 0).toNat % 2 ^ 32) ∨
      (onPacket insns ctx pkt fuel = some (.stop (.overrun log)) ∧ v = 0) := by
  obtain ⟨fuel, hfuel⟩ := h
  obtain ⟨e, he, hret⟩ := Option.bind_eq_some_iff.mp hfuel
  refine ⟨fuel, ?_⟩
  unfold returned at hret
  split at hret
  · obtain ⟨rfl, rfl⟩ := Prod.mk.inj (Option.some.inj hret)
    exact .inl ⟨_, he, rfl, rfl⟩
  · obtain ⟨rfl, rfl⟩ := Prod.mk.inj (Option.some.inj hret)
    exact .inr ⟨he, rfl⟩
  · cases hret

/-! ## What two runs show -/

/-- The runs of two emitted programs are told apart: one rejects and the other does
not, or neither rejects and they emit different values, leave different bytes or reach
differently far into a region. -/
def Differ (p₁ p₂ : Program) (mem : Nat → Nat → Cell) : Prop :=
  let σ₁ := p₁.run mem
  let σ₂ := p₂.run mem
  let rejects₁ := σ₁.Rejects (regionLen p₁.regions)
  let rejects₂ := σ₂.Rejects (regionLen p₂.regions)
  (rejects₁ ∧ ¬rejects₂) ∨ (¬rejects₁ ∧ rejects₂) ∨ (¬rejects₁ ∧ ¬rejects₂ ∧
    (σ₁.emit32 p₁.emitHdr ≠ σ₂.emit32 p₂.emitHdr ∨ σ₁.mem ≠ σ₂.mem ∨
      ∃ r, σ₁.extent r ≠ σ₂.extent r))

/-! ## The extent of a run -/

/-- Where an access ends. -/
def Access.stop (a : Access) : Nat := a.off + a.nbytes

theorem foldl_max_stop_le {as : List Access} {k B : Nat} :
    as.foldl (fun m a => max m (a.off + a.nbytes)) k ≤ B ↔ k ≤ B ∧ ∀ a ∈ as, a.stop ≤ B := by
  induction as generalizing k with
  | nil => simp
  | cons a as ih =>
    simp only [List.foldl_cons, ih, List.mem_cons, forall_eq_or_imp, Access.stop, max_le_iff,
      and_assoc]

theorem State.extent_le {σ : State} {r B : Nat} :
    σ.extent r ≤ B ↔ ∀ a ∈ σ.log, a.region = r → a.stop ≤ B := by
  simp [extent, foldl_max_stop_le]

/-! ## What one run shows -/

section Filter

variable {insns : List Insn} {c : Config} {pkt : List Byte} {log : List Access} {v : Nat}

theorem isProgramOf_filter (h : isFilterProgram insns = true) :
    isProgramOf Insn.isRegional insns = true := by
  refine List.all_eq_true.mpr fun k hk => ?_
  obtain ⟨_, hlt⟩ := mem_scan.mp hk
  have hmem : insnAt insns k ∈ insns := by
    simp [insnAt, List.getD, List.getElem?_eq_getElem hlt]
  have hi := List.all_eq_true.mp h _ hmem
  simp only [Insn.isFilter, Bool.and_eq_true, Bool.not_eq_true'] at hi
  simp [hi.1.1.1.1, hi.2]

/-- Such a program has no load or store through a pointer. -/
theorem filter_cls (h : isFilterProgram insns = true) (pc : Nat) :
    (insns.getD pc default).cls ≠ .ldx ∧ (insns.getD pc default).cls ≠ .stx ∧
      (insns.getD pc default).cls ≠ .st := by
  by_cases hlt : pc < insns.length
  · have hmem : insns.getD pc default ∈ insns := by
      simp [List.getD, List.getElem?_eq_getElem hlt]
    have hi := List.all_eq_true.mp h _ hmem
    simp only [Insn.isFilter, Bool.and_eq_true, bne_iff_ne, ne_eq] at hi
    exact ⟨hi.1.1.1.2, hi.1.1.2, hi.1.2⟩
  · rw [List.getD, List.getElem?_eq_none (Nat.le_of_not_lt hlt)]
    decide

/-- Every access of such a program is to the packet. -/
theorem filterStep_outcome {ctx : CtxLayout} {len : Nat → Nat} (h : isFilterProgram insns = true)
    (pc : Nat) (m : Machine) :
    Outcome (fun a => a.region = regionPkt) len m (m.step insns ctx len pc) := by
  unfold Machine.step
  split
  · exact rfl
  · obtain ⟨hldx, hstx, hst⟩ := filter_cls h pc
    dsimp only
    split
    · exact .inl rfl
    · split <;> rename_i hcls
      · exact aluStep_outcome
      · exact aluStep_outcome
      · exact absurd hcls hldx
      · exact absurd hcls hstx
      · exact absurd hcls hst
      · exact ldPktStep_outcome fun _ hr => hr
      · exact jmpStep_outcome
      · exact jmpStep_outcome

/-- How a run on a packet and the run of the emitted chain compare. -/
inductive Shows (p : Program) (pkt : List Byte) (log : List Access) (v : Nat)
    (σ : State) : Prop where
  /-- The program returns, within the packet and the modelled part of it. -/
  | returned (hv : σ.emit32 p.emitHdr = some v) (hr : ¬σ.Rejects (regionLen p.regions))
      (hlog : σ.log = log) (hin : ∀ a ∈ log, a.stop ≤ pkt.length)
  /-- A load past the packet's end. -/
  | aborted {a : Access} (hv : v = 0) (ha : a ∈ log) (hlog : a ∈ σ.log)
      (hstop : pkt.length < a.stop)
  /-- A load within the packet, past the modelled part. -/
  | beyond {a : Access} (hr : σ.Rejects (regionLen p.regions)) (ha : a ∈ log)
      (hstop : pktLen < a.stop) (hin : a.stop ≤ pkt.length)

theorem regionLen_pkt (c : Config) : regionLen (declaredRegions c) regionPkt = pktLen := by
  rfl

theorem Returns.shows {t' : Translator} {mods : List (List Rule)} {ops : List Op}
    (hprog : isFilterProgram insns = true) (hmaps : ∀ k, c.insnMapIdx k = none)
    (hlen : decidePc insns.length < 2 ^ 64)
    (h : (translateProgram insns).Accepts c .init mods t' ops)
      (hret : Returns insns c.ctx pkt log v) :
    Shows (emitProgram c mods) pkt log v
      ((emitProgram c mods).run fun r k => some (packetMem pkt r k)) := by
  have hentry : ∀ a ∈ (Machine.entry (packetMem pkt)).log,
      a.region = regionPkt ∧ ¬a.Overruns fun _ => pkt.length := by simp [Machine.entry]
  have hout := @filterStep_outcome _ c.ctx (fun _ => pkt.length) hprog
  have hstop : ∀ {a : Access}, ¬a.Overruns (fun _ => pkt.length) → a.stop ≤ pkt.length := by
    intro a ha; simpa [Access.Overruns, Access.stop] using ha
  have hrun := (@translateProgram_sim _ _ (fun _ => pkt.length)) (isProgramOf_filter hprog) hmaps
    hlen h (packetMem pkt)
  set σ := (emitProgram c mods).run fun r k => some (packetMem pkt r k)
  -- the machine goes on after a load past the modelled part
  have hbeyond : ∀ {pc' m' a}, Reaches (Machine.step insns c.ctx fun _ => pkt.length) 0
      (Machine.entry (packetMem pkt)) pc' m' → a.Overruns (regionLen (declaredRegions c)) →
      a ∈ m'.log → pktLen < a.stop ∧ a.stop ≤ pkt.length := by
    intro pc' m' a hr hover ha
    obtain ⟨hregion, hin⟩ := reaches_log hout hr hentry a ha
    rw [Access.Overruns, hregion, regionLen_pkt] at hover
    exact ⟨hover, hstop hin⟩
  obtain ⟨fuel, ⟨m, hr, rfl, rfl⟩ | ⟨hr, rfl⟩⟩ := hret.cases
  · cases hrun with
    | exit hend hsim hused =>
      obtain rfl := End.exit.inj (hend.unique hr)
      refine .returned (emit32_of_regsMatch hsim.regs hused) ?_ hsim.log fun a ha =>
        hstop (exit_log hout hr hentry a ha).2
      rintro ⟨a, ha, hover⟩
      exact hsim.inRange a (hsim.log ▸ ha) hover
    | narrow _ hn => exact absurd hn.1 (filter_cls hprog _).1
    | passed hreach hover ha hlog =>
      obtain ⟨hlong, hin⟩ := hbeyond hreach hover ha
      obtain ⟨_, hrest⟩ := hreach.runFor hr
      exact .beyond ⟨_, hlog.subset ha, hover⟩ ((exit_log_extends hout hrest).subset ha) hlong hin
    | off hend | fault hend | overrun hend => cases hend.unique hr
  · cases hrun with
    | @overrun log a hend hover hlog =>
      obtain rfl := Halt.overrun.inj (End.stop.inj (hend.unique hr))
      refine .aborted (a := a) rfl (by simp) (hlog.subset (by simp)) ?_
      simpa [Access.Overruns, Access.stop] using hover
    | narrow _ hn => exact absurd hn.1 (filter_cls hprog _).1
    | passed hreach hover ha hlog =>
      obtain ⟨hlong, hin⟩ := hbeyond hreach hover ha
      obtain ⟨_, hrest⟩ := hreach.runFor hr
      exact .beyond ⟨_, hlog.subset ha, hover⟩ ((overrun_log_extends hout hrest).subset ha)
        hlong hin
    | off hend | fault hend | exit hend => cases hend.unique hr

end Filter

/-! ## Two programs -/

theorem State.stop_le_extent {σ : State} {a : Access} (h : a ∈ σ.log) :
    a.stop ≤ σ.extent a.region :=
  State.extent_le.mp le_rfl a h rfl

/-- An aborted run is told apart from one that returns. -/
theorem differ_of_abort {p₁ p₂ : Program} {pkt : List Byte} {log₁ : List Access}
    {mem : Nat → Nat → Cell} {a : Access}
    (hr₁ : ¬(p₁.run mem).Rejects (regionLen p₁.regions)) (hlog₁ : (p₁.run mem).log = log₁)
    (hin₁ : ∀ a ∈ log₁, a.stop ≤ pkt.length) (hlog₂ : a ∈ (p₂.run mem).log)
    (hstop : pkt.length < a.stop) : Differ p₁ p₂ mem := by
  by_cases hr₂ : (p₂.run mem).Rejects (regionLen p₂.regions)
  · exact .inr (.inl ⟨hr₁, hr₂⟩)
  · refine .inr (.inr ⟨hr₁, hr₂, .inr (.inr ⟨a.region, ?_⟩)⟩)
    have h₁ : (p₁.run mem).extent a.region ≤ pkt.length :=
      State.extent_le.mpr fun b hb _ => hin₁ b (hlog₁ ▸ hb)
    have h₂ := State.stop_le_extent hlog₂
    omega

theorem Differ.symm {p₁ p₂ : Program} {mem : Nat → Nat → Cell} (h : Differ p₁ p₂ mem) :
    Differ p₂ p₁ mem := by
  rcases h with ⟨h₁, h₂⟩ | ⟨h₁, h₂⟩ | ⟨h₁, h₂, h₃⟩
  · exact .inr (.inl ⟨h₂, h₁⟩)
  · exact .inl ⟨h₂, h₁⟩
  · refine .inr (.inr ⟨h₂, h₁, ?_⟩)
    rcases h₃ with h | h | ⟨r, h⟩
    · exact .inl h.symm
    · exact .inr (.inl h.symm)
    · exact .inr (.inr ⟨r, h.symm⟩)

section Pair

variable {insns₁ insns₂ : List Insn} {c₁ c₂ : Config} {t₁ t₂ : Translator}
  {mods₁ mods₂ : List (List Rule)} {ops₁ ops₂ : List Op} {pkt : List Byte}
  {log₁ log₂ : List Access} {v₁ v₂ : Nat}

/-- Programs that return different values on a packet are told apart on that packet,
provided one of the two runs loads from the modelled part of the packet only. A packet
no longer than that part needs no such proviso. -/
theorem packet_loads_told_apart
    (hprog₁ : isFilterProgram insns₁ = true) (hprog₂ : isFilterProgram insns₂ = true)
    (hmaps₁ : ∀ k, c₁.insnMapIdx k = none) (hmaps₂ : ∀ k, c₂.insnMapIdx k = none)
    (hlen₁ : decidePc insns₁.length < 2 ^ 64) (hlen₂ : decidePc insns₂.length < 2 ^ 64)
    (h₁ : (translateProgram insns₁).Accepts c₁ .init mods₁ t₁ ops₁)
    (h₂ : (translateProgram insns₂).Accepts c₂ .init mods₂ t₂ ops₂)
    (hret₁ : Returns insns₁ c₁.ctx pkt log₁ v₁) (hret₂ : Returns insns₂ c₂.ctx pkt log₂ v₂)
    (hne : v₁ ≠ v₂)
    (hwithin : pkt.length ≤ pktLen ∨ (∀ a ∈ log₁, a.stop ≤ pktLen) ∨ ∀ a ∈ log₂, a.stop ≤ pktLen) :
    ∃ mem, Differ (emitProgram c₁ mods₁) (emitProgram c₂ mods₂) mem := by
  refine ⟨fun r k => some (packetMem pkt r k), ?_⟩
  cases hret₁.shows hprog₁ hmaps₁ hlen₁ h₁ with
  | returned hv₁ hr₁ hlog₁ hin₁ =>
    cases hret₂.shows hprog₂ hmaps₂ hlen₂ h₂ with
    | returned hv₂ hr₂ _ _ =>
      refine .inr (.inr ⟨hr₁, hr₂, .inl ?_⟩)
      rw [hv₁, hv₂]
      exact fun h => hne (Option.some.inj h)
    | aborted _ _ hlog hstop => exact differ_of_abort hr₁ hlog₁ hin₁ hlog hstop
    | beyond hr₂ => exact .inr (.inl ⟨hr₁, hr₂⟩)
  | aborted hv₁ ha₁ hlog hstop₁ =>
    cases hret₂.shows hprog₂ hmaps₂ hlen₂ h₂ with
    | returned _ hr₂ hlog₂ hin₂ => exact (differ_of_abort hr₂ hlog₂ hin₂ hlog hstop₁).symm
    | aborted hv₂ => exact absurd (hv₁.trans hv₂.symm) hne
    | beyond _ ha₂ hstop₂ hin₂ =>
      rcases hwithin with hL | hL | hL
      · omega
      · have := hL _ ha₁; omega
      · have := hL _ ha₂; omega
  | beyond hr₁ ha₁ hstop₁ hin₁ =>
    cases hret₂.shows hprog₂ hmaps₂ hlen₂ h₂ with
    | returned _ hr₂ => exact .inl ⟨hr₁, hr₂⟩
    | aborted _ ha₂ _ hstop₂ =>
      rcases hwithin with hL | hL | hL
      · omega
      · have := hL _ ha₁; omega
      · have := hL _ ha₂; omega
    | beyond _ ha₂ hstop₂ _ =>
      rcases hwithin with hL | hL | hL
      · omega
      · have := hL _ ha₁; omega
      · have := hL _ ha₂; omega

end Pair

/-- `r0 = pkt[at]; exit`. -/
def firstByteProgram : List Insn := [⟨0x30, 0, 0, 0, 0⟩, ⟨0x95, 0, 0, 0, 0⟩]

/-- `r0 = 7; exit`. -/
def sevenProgram : List Insn := [⟨0xb7, 0, 0, 0, 7⟩, ⟨0x95, 0, 0, 0, 0⟩]

theorem firstByteProgram_told_apart :
    ∃ mods₁ mods₂ mem, Differ (emitProgram xdpConfig mods₁) (emitProgram xdpConfig mods₂) mem := by
  obtain ⟨mods₁, hmods₁⟩ :
      ∃ mods, (translateProgram firstByteProgram).result xdpConfig .init = some mods := ⟨_, rfl⟩
  obtain ⟨mods₂, hmods₂⟩ :
      ∃ mods, (translateProgram sevenProgram).result xdpConfig .init = some mods := ⟨_, rfl⟩
  obtain ⟨_, _, h₁⟩ := accepts_of_result hmods₁
  obtain ⟨_, _, h₂⟩ := accepts_of_result hmods₂
  refine ⟨mods₁, mods₂, (@packet_loads_told_apart _ _ _ _ _ _ _ _ _ _ [5]) (by decide)
    (by decide) (fun _ => rfl)
    (fun _ => rfl) (by decide) (by decide) h₁ h₂ ⟨3, rfl⟩ ⟨3, rfl⟩ (by decide)
    (.inl (by decide))⟩

/-- `r0 = pkt[64]; r0 = k; exit`. -/
def pastModelProgram (k : BitVec 32) : List Insn :=
  [⟨0x30, 0, 0, 0, 64⟩, ⟨0xb7, 0, 0, 0, k⟩, ⟨0x95, 0, 0, 0, 0⟩]

/-- Both programs load a byte of the packet beyond the modelled part, and both chains
reject whatever the regions hold. -/
theorem pastModelProgram_counterexample :
    ∃ mods₁ mods₂, (translateProgram (pastModelProgram 1)).result xdpConfig .init = some mods₁ ∧
      (translateProgram (pastModelProgram 2)).result xdpConfig .init = some mods₂ ∧
      isFilterProgram (pastModelProgram 1) = true ∧ isFilterProgram (pastModelProgram 2) = true ∧
      (∃ log, Returns (pastModelProgram 1) ctxXdpMd (List.replicate 65 0) log 1) ∧
      (∃ log, Returns (pastModelProgram 2) ctxXdpMd (List.replicate 65 0) log 2) ∧
      ¬∃ mem, Differ (emitProgram xdpConfig mods₁) (emitProgram xdpConfig mods₂) mem := by
  refine ⟨_, _, rfl, rfl, by decide, by decide, ⟨_, 4, rfl⟩, ⟨_, 4, rfl⟩, ?_⟩
  rintro ⟨mem, hdiffer⟩
  have hrejects : ∀ {p : Program}, (p.run mem).log = [⟨false, regionPkt, 64, 1⟩] →
      regionLen p.regions regionPkt = 64 → (p.run mem).Rejects (regionLen p.regions) := by
    intro p hlog hlen
    exact ⟨_, by rw [hlog]; exact List.mem_singleton.mpr rfl, by simp [Access.Overruns, hlen]⟩
  rcases hdiffer with ⟨_, h⟩ | ⟨h, _⟩ | ⟨h, _⟩
  all_goals exact h (hrejects rfl rfl)

end Ect
