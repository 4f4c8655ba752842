-- SUMMARY: The accesses a map call makes, one by one, and that they respect the layout of the map's region.
import Ect.Maps.Effects
import Ect.Maps.Layout
import Ect.Maps.Scratch
import Ect.Maps.Values

/-!
# Accesses of a map call

`Role` says what an access is for, and fixes the cells it may touch. The log of a call is
the accesses of its roles in turn, so every access is the one its role allows.
-/

namespace Ect

open TransM Ranges

variable {c : Config} {len : Nat → Nat} {σ σ' σ₁ σ₂ σ₃ : State} {t t' : Translator}
  {ops : List Op} {idx : Nat} {kw : Width} {st st' : AbsState} {kp vp : RegInfo} {mr : MapRef}

/-! ## What a run accesses -/

/-- The access stores into cell `k` of region `r`. -/
def Access.Stores (a : Access) (r k : Nat) : Prop :=
  a.isStore = true ∧ a.region = r ∧ a.off ≤ k ∧ k < a.off + a.nbytes

/-- From `σ` to `σ'` the accesses `as` were made, and no cell changed but those they store
into. -/
structure State.Made (σ σ' : State) (as : List Access) : Prop where
  log : σ'.log = σ.log ++ as
  mem : ∀ r k, (∀ a ∈ as, ¬a.Stores r k) → σ'.mem r k = σ.mem r k

namespace State.Made

variable {as bs : List Access}

theorem refl (σ : State) : σ.Made σ [] := ⟨by simp, fun _ _ _ => rfl⟩

theorem trans (h₁ : σ₁.Made σ₂ as) (h₂ : σ₂.Made σ₃ bs) : σ₁.Made σ₃ (as ++ bs) where
  log := by rw [h₂.log, h₁.log, List.append_assoc]
  mem r k h := by
    rw [h₂.mem r k fun a ha => h a (List.mem_append_right _ ha),
      h₁.mem r k fun a ha => h a (List.mem_append_left _ ha)]

theorem setHdr (σ : State) (h : Nat) (v : CrVal) : σ.Made (σ.setHdr h v) [] :=
  ⟨by simp, fun _ _ _ => rfl⟩

end State.Made

theorem Op.Into.made {T : Nat → Prop} {op : Op} (h : op.Into T) : σ.Made (op.eval len σ) [] := by
  obtain ⟨hmem, hlog, _⟩ := h.sameBut len σ
  exact ⟨by simp [hlog], fun _ _ _ => by rw [hmem]⟩

theorem load_made {w : Width} {r o target : Nat} {a : Operand} (ha : a.eval σ .w64 = some o) :
    σ.Made ((Op.load w r a target).eval len σ) [⟨false, r, o, w.bytes⟩] := by
  simp only [Op.eval, ha]
  split <;> exact ⟨rfl, fun _ _ _ => rfl⟩

theorem load_made_none {w : Width} {r target : Nat} {a : Operand} (ha : a.eval σ .w64 = none) :
    σ.Made ((Op.load w r a target).eval len σ) [] := by
  simp only [Op.eval, ha]
  exact .setHdr σ target .error

theorem store_made {w : Width} {r o : Nat} {a v : Operand} (ha : a.eval σ .w64 = some o) :
    σ.Made ((Op.store w r a v).eval len σ) [⟨true, r, o, w.bytes⟩] := by
  simp only [Op.eval, ha]
  split
  · refine ⟨rfl, fun r' k h => ?_⟩
    have hout := h _ (List.mem_singleton_self _)
    simp only [State.setMem_mem, State.addLog_mem]
    split
    · rename_i heq
      subst heq
      simp only [Access.Stores, true_and] at hout
      exact writeCells_out (by rw [storeCells_length]; omega)
    · rfl
  · exact ⟨rfl, fun _ _ _ => rfl⟩

theorem runOps_made_append {xs ys : List Op} {as bs : List Access}
    (h : σ.Made (runOps len σ xs) as)
    (hs : (runOps len σ xs).Made (runOps len (runOps len σ xs) ys) bs) :
    σ.Made (runOps len σ (xs ++ ys)) (as ++ bs) := by
  rw [runOps_append]
  exact h.trans hs

/-! ## Roles -/

/-- What an access of a call is for. -/
inductive Role where
  /-- The key, through `r2`. -/
  | key
  /-- The new value, through `r3`. -/
  | value
  /-- A byte of the new value, through `r3`. -/
  | valueByte (j : Nat)
  | load (p : Part)
  | store (p : Part)
  | storeByte (p : Part) (j : Nat)
  deriving DecidableEq, Repr

namespace Role

/-- The access a role makes in the state `σ`. A pointer that is no 64-bit integer makes
none. -/
def accesses (c : Config) (mr : MapRef) (kp vp : RegInfo) (σ : State) : Role → List Access
  | key => ((σ.hdr (hReg 2)).asInt .w64).toList.map
      fun o => ⟨false, regionOf c.maps kp, o, mr.mi.keySize⟩
  | value => ((σ.hdr (hReg 3)).asInt .w64).toList.map
      fun o => ⟨false, regionOf c.maps vp, o, mr.mi.valueSize⟩
  | valueByte j => ((σ.hdr (hReg 3)).asInt .w64).toList.map
      fun o => ⟨false, regionOf c.maps vp, (o + j) % 2 ^ 64, 1⟩
  | load p => [⟨false, mr.region, (p.range mr.mi).off, (p.range mr.mi).size⟩]
  | store p => [⟨true, mr.region, (p.range mr.mi).off, (p.range mr.mi).size⟩]
  | storeByte p j => [⟨true, mr.region, (p.range mr.mi).off + j, 1⟩]

/-- The role keeps to the layout: it loads a part of the map, or stores into a part of the
selected slot, which for an array is its value. -/
def Respects (mi : MapInfo) (slot : Option Nat) : Role → Prop
  | key | value | valueByte _ => True
  | load p => p.Of mi
  | store p => p.Of mi ∧ ∃ i, slot = some i ∧ p.OfSlot i ∧ (mi.isArray = true → p = .value i)
  | storeByte p j => j < (p.range mi).size ∧ p.Of mi ∧
      ∃ i, slot = some i ∧ p.OfSlot i ∧ (mi.isArray = true → p = .value i)

end Role

/-- The roles of the key's read. -/
def keyRoles (kp : RegInfo) : List Role := if kp.tag = .stack then [] else [.key]

/-- The roles of the scan: every presence byte, then every tag. -/
def scanRoles (mi : MapInfo) : List Role :=
  (List.range mi.nslots).map (fun i => .load (.presence i)) ++
    (List.range mi.nslots).map fun i => .load (.tag i)

/-- The roles of the copy into slot `i`. -/
def copyRoles (mi : MapInfo) (vp : RegInfo) (i : Nat) : List Role :=
  if vp.tag = .stack then [.store (.value i)]
  else if copySizeModelled mi.valueSize then [.value, .store (.value i)]
  else (List.range mi.valueSize).flatMap fun j => [.valueByte j, .storeByte (.value i) j]

/-! ## Keys, scans and copies -/

theorem widthName_bytes {n : Nat} (h : (n == 1 || n == 2 || n == 4 || n == 8) = true) :
    (widthName n).bytes = n := by
  simp only [Bool.or_eq_true, beq_iff_eq] at h
  rcases h with ((rfl | rfl) | rfl) | rfl <;> rfl

/-- The load through a pointer, when it holds one. -/
theorem through_made {w : Width} {r p target : Nat} :
    σ.Made ((Op.load w r (hdr p) target).eval len σ)
      (((σ.hdr p).asInt .w64).toList.map fun o => ⟨false, r, o, w.bytes⟩) := by
  cases ho : (σ.hdr p).asInt .w64 with
  | none => exact load_made_none ho
  | some o => exact load_made ho

variable (vp) in
theorem KeyRead.made (h : KeyRead c t kp (widthName mr.mi.keySize) t' ops)
    (hsize : keySizeModelled mr.mi = true) :
    σ.Made (runOps len σ ops) ((keyRoles kp).flatMap (Role.accesses c mr kp vp σ)) := by
  have hcast : ∀ {σ : State} {frm into : Width} {a : Operand} {d : Nat},
      σ.Made ((Op.cast frm into a d).eval len σ) [] := fun {_ _ _ _ d} =>
    Op.Into.made (T := (· = d)) rfl
  cases h with
  | stack htag =>
    rw [keyRoles, if_pos htag]
    exact hcast
  | region htag =>
    rw [keyRoles, if_neg htag]
    have hload := @through_made len σ (widthName mr.mi.keySize) (regionOf c.maps kp) (hReg 2)
      (hTmp (t.tmpNext + 1))
    rw [widthName_bytes hsize] at hload
    simpa [Role.accesses] using hload.trans hcast

/-- Loads of whole parts. -/
theorem widenOps_made {w : Width} {tRaw k : Nat} {parts : List Part} {offs : List Nat}
    (hoffs : offs = parts.map fun p => (p.range mr.mi).off)
    (hparts : ∀ p ∈ parts, (p.range mr.mi).off < 2 ^ 64 ∧ (p.range mr.mi).size = w.bytes) :
    σ.Made (runOps len σ (widenOps w mr.region tRaw k offs))
      ((parts.map Role.load).flatMap (Role.accesses c mr kp vp σ₁)) := by
  subst hoffs
  induction parts generalizing σ k with
  | nil => exact .refl σ
  | cons p parts ih =>
    obtain ⟨hoff, hsize⟩ := hparts p (by simp)
    have hload := (@load_made len σ w mr.region _ tRaw)
      (Operand.eval_konstN (w := .w64) hoff)
    have hcast : ∀ {σ : State}, σ.Made ((Op.cast w .w64 (hdr tRaw) (hTmp k)).eval len σ) [] :=
      Op.Into.made (T := (· = hTmp k)) rfl
    have hrest := hload.trans (hcast.trans (ih (k := k + 1) fun q hq => hparts q (by simp [hq])))
    simpa [widenOps, Role.accesses, hsize] using hrest

theorem scanOps_made {b : Nat} (hsize : keySizeModelled mr.mi = true)
    (hslots : mr.mi.nslots ≤ numTmps) :
    σ.Made (runOps len σ (scanOps mr (widthName mr.mi.keySize) b))
      ((scanRoles mr.mi).flatMap (Role.accesses c mr kp vp σ₁)) := by
  have hkey : mr.mi.keySize ≤ 8 := by
    simp only [keySizeModelled, Bool.or_eq_true, beq_iff_eq] at hsize
    omega
  have hbytes := widthName_bytes hsize
  have hpres : (List.range mr.mi.nslots).map (fun i => Role.load (.presence i)) =
      ((List.range mr.mi.nslots).map Part.presence).map Role.load := by simp
  have htags : (List.range mr.mi.nslots).map (fun i => Role.load (.tag i)) =
      ((List.range mr.mi.nslots).map Part.tag).map Role.load := by simp
  rw [scanOps, scanRoles, List.flatMap_append, hpres, htags]
  simp only [numTmps] at hslots
  refine runOps_made_append (widenOps_made (by simp [Function.comp_def, Part.range]) ?_)
    (widenOps_made (by simp [Function.comp_def, Part.range]) ?_)
  · simp only [List.mem_map, List.mem_range, forall_exists_index, and_imp]
    rintro _ i hi rfl
    exact ⟨by simp only [Part.range]; omega, rfl⟩
  · simp only [List.mem_map, List.mem_range, forall_exists_index, and_imp]
    rintro _ i hi rfl
    have hmul : i * mr.mi.keySize ≤ 64 * 8 := Nat.mul_le_mul (by omega) hkey
    refine ⟨?_, hbytes.symm⟩
    simp only [Part.range, MapInfo.tagOff, MapInfo.tagBase]
    omega

theorem Role.accesses_congr (h₂ : σ₁.hdr (hReg 2) = σ.hdr (hReg 2))
    (h₃ : σ₁.hdr (hReg 3) = σ.hdr (hReg 3)) :
    Role.accesses c mr kp vp σ₁ = Role.accesses c mr kp vp σ := by
  funext ρ
  cases ρ <;> simp only [Role.accesses, h₂, h₃]

/-- One byte of a copy: its load, and its store. -/
theorem copyByte_made {srcRegion tSa tDa tB i j d : Nat} {dst : Operand}
    (hsd : tSa ≠ tDa) (hdb : tDa ≠ tB) (hd : d = mr.mi.valueOff i) (hj : j < 2 ^ 64)
    (hfit : d + j < 2 ^ 64) (hsrc : srcRegion = regionOf c.maps vp)
    (hdst : ∀ v, dst.eval (σ.setHdr tSa v) .w64 = some d) :
    σ.Made (runOps len σ
        [.stateless .add .w64 (hdr (hReg 3)) (konstN j) tSa,
          .stateless .add .w64 dst (konstN j) tDa,
          .load .w8 srcRegion (hdr tSa) tB, .store .w8 mr.region (hdr tDa) (hdr tB)])
      (Role.accesses c mr kp vp σ (.valueByte j) ++
        Role.accesses c mr kp vp σ (.storeByte (.value i) j)) := by
  have hkonst : ∀ τ : State, (konstN j).eval τ .w64 = some j := fun _ =>
    Operand.eval_konstN (w := .w64) hj
  -- the source address is an integer exactly when `r3` is one
  obtain ⟨v, hv, hint⟩ : ∃ v, (Op.stateless .add .w64 (hdr (hReg 3)) (konstN j) tSa).eval len σ =
      σ.setHdr tSa v ∧ v.asInt .w64 = ((σ.hdr (hReg 3)).asInt .w64).map fun o =>
      (o + j) % 2 ^ 64 := by
    cases ho : (σ.hdr (hReg 3)).asInt .w64 with
    | none =>
      have heval : (hdr (hReg 3)).eval σ .w64 = none := ho
      exact ⟨.error, by simp [Op.eval, heval], rfl⟩
    | some o =>
      have heval : (hdr (hReg 3)).eval σ .w64 = some o := ho
      exact ⟨.int .w64 ((o + j) % 2 ^ 64), by simp [Op.eval, heval, hkonst, BinOp.eval], by simp⟩
  simp only [runOps_cons, runOps_nil, hv]
  rw [Op.eval_stateless (hdst v) (hkonst _)]
  have hsum : BinOp.add.eval .w64 d j = d + j := by
    simp only [BinOp.eval, Width.bits_w64, Nat.mod_eq_of_lt hfit]
  rw [hsum]
  set τ := (σ.setHdr tSa v).setHdr tDa (.int .w64 (d + j)) with hτ
  have hmade : σ.Made τ [] := (State.Made.setHdr σ tSa v).trans (.setHdr _ tDa _)
  have hload := @through_made len τ .w8 srcRegion tSa tB
  have hSa : (τ.hdr tSa).asInt .w64 = ((σ.hdr (hReg 3)).asInt .w64).map fun o =>
    (o + j) % 2 ^ 64 := by
    simp [hτ, hsd, hint]
  have hkeep : ((Op.load .w8 srcRegion (hdr tSa) tB).eval len τ).hdr tDa = .int .w64 (d + j) := by
    rw [Op.Writes.hdr (T := (· = tB)) (Op.writes_load.mpr rfl) len τ hdb]
    simp [hτ]
  have hstore := @store_made len _ .w8 mr.region _ _ (hdr tB)
    (Operand.eval_hdr hkeep)
  have hall := hmade.trans (hload.trans hstore)
  rw [hSa, hsrc] at hall
  simpa [Role.accesses, Part.range, hd, hsrc, List.map_map, Function.comp_def,
    Option.toList_map] using hall

/-- The scratch headers of a copy. -/
def IsCopyTmp (n h : Nat) : Prop := h = hTmp n ∨ h = hTmp (n + 1) ∨ h = hTmp (n + 2)

theorem not_isCopyTmp_hReg {n : Nat} (r : Fin 11) : ¬IsCopyTmp n (hReg r) := by
  simp only [IsCopyTmp, hTmp, hReg]
  omega

/-- The destination is the slot's value, whatever the copy's headers hold. -/
def CopiesTo (mi : MapInfo) (n i : Nat) (dst : Operand) (σ : State) : Prop :=
  ∀ τ : State, (∀ h, ¬IsCopyTmp n h → τ.hdr h = σ.hdr h) → dst.eval τ .w64 = some (mi.valueOff i)

theorem copyBytesOps_made {n i : Nat} {dst : Operand} {js : List Nat}
    (hdst : CopiesTo mr.mi n i dst σ) (hfit : mr.mi.valueOff i + mr.mi.valueSize < 2 ^ 64)
    (hjs : ∀ j ∈ js, j < mr.mi.valueSize) {τ : State}
    (hτ : ∀ h, ¬IsCopyTmp n h → τ.hdr h = σ.hdr h) :
    τ.Made (runOps len τ (copyBytesOps (regionOf c.maps vp) mr.region dst (hTmp n) (hTmp (n + 1))
        (hTmp (n + 2)) js))
      ((js.flatMap fun j => [Role.valueByte j, .storeByte (.value i) j]).flatMap
        (Role.accesses c mr kp vp σ)) := by
  induction js generalizing τ with
  | nil => exact .refl τ
  | cons j js ih =>
    have hj := hjs j (by simp)
    have hbyte := (@copyByte_made c len τ kp vp _ _ (hTmp n) (hTmp (n + 1)) (hTmp (n + 2)) i j
      (mr.mi.valueOff i)) (by simp [hTmp_inj]) (by simp [hTmp_inj]) rfl (by omega)
      (by omega) rfl fun v => hdst _ fun h hh => by
        have hne : h ≠ hTmp n := fun he => hh (.inl he)
        simp [hne, hτ h hh]
    rw [Role.accesses_congr (hτ _ (not_isCopyTmp_hReg 2)) (hτ _ (not_isCopyTmp_hReg 3))] at hbyte
    have hwrites : AllWrite (IsCopyTmp n)
      [Op.stateless .add .w64 (hdr (hReg 3)) (konstN j) (hTmp n),
        .stateless .add .w64 dst (konstN j) (hTmp (n + 1)),
        .load .w8 (regionOf c.maps vp) (hdr (hTmp n)) (hTmp (n + 2)),
        .store .w8 mr.region (hdr (hTmp (n + 1))) (hdr (hTmp (n + 2)))] := by
      simp [IsCopyTmp]
    have hrest := ih (fun k hk => hjs k (by simp [hk])) fun h hh => by
      rw [runOps_hdr hwrites len τ hh, hτ h hh]
    have hall := runOps_made_append hbyte hrest
    simpa [copyBytesOps] using hall

variable (kp) in
/-- An accepted copy into slot `i` makes the accesses of its roles. -/
theorem ValueCopy.made {dst : Operand} {i : Nat} (h : ValueCopy c t vp mr dst t' ops)
    (hdst : CopiesTo mr.mi t.tmpNext i dst σ)
    (hfit : mr.mi.valueOff i + mr.mi.valueSize < 2 ^ 64) :
    σ.Made (runOps len σ ops)
      ((copyRoles mr.mi vp i).flatMap (Role.accesses c mr kp vp σ)) := by
  have hd : dst.eval σ .w64 = some (mr.mi.valueOff i) := hdst σ fun _ _ => rfl
  cases h with
  | stack htag hsize =>
    have hstore := @store_made len _ (widthName mr.mi.valueSize) mr.region _ _ (hdr ‹Nat›) hd
    rw [widthName_bytes hsize] at hstore
    simpa [copyRoles, htag, Role.accesses, Part.range] using hstore
  | wide htag _ hsize =>
    have hload := @through_made len σ (widthName mr.mi.valueSize) (regionOf c.maps vp)
      (hReg 3) (hTmp t.tmpNext)
    have hd' : dst.eval ((Op.load (widthName mr.mi.valueSize) (regionOf c.maps vp) (hdr (hReg 3))
        (hTmp t.tmpNext)).eval len σ) .w64 = some (mr.mi.valueOff i) :=
      hdst _ fun k hk => Op.Writes.hdr (T := IsCopyTmp t.tmpNext)
      (Op.writes_load.mpr (.inl rfl)) len σ hk
    have hstore := @store_made len _ (widthName mr.mi.valueSize) mr.region _ _
      (hdr (hTmp t.tmpNext)) hd'
    rw [widthName_bytes hsize] at hload hstore
    have hall := hload.trans hstore
    simpa [copyRoles, htag, hsize, Role.accesses, Part.range] using hall
  | bytes htag _ hsize _ _ hops =>
    obtain ⟨_, rfl⟩ := emitCopyBytes_accepts hops
    have hjs : ∀ j ∈ List.range mr.mi.valueSize, j < mr.mi.valueSize := by simp
    have hall := (@copyBytesOps_made c len _ kp vp) hdst hfit hjs (τ := σ) fun _ _ => rfl
    simpa [copyRoles, htag, hsize] using hall

/-! ## Arms -/

theorem made_of_into {T : Nat → Prop} (h : ∀ op ∈ ops, op.Into T) :
    σ.Made (runOps len σ ops) [] := by
  obtain ⟨hmem, hlog, _⟩ := runOps_sameBut h len σ
  exact ⟨by simp [hlog], fun _ _ _ => by rw [hmem]⟩

theorem setOp_made {d : Nat} {v : Int} : σ.Made (runOps len σ [setOp d v]) [] :=
  made_of_into (T := (· = d)) (by simp [setOp, Op.Into])

theorem ValueCopy.valueSize_le {dst : Operand} (h : ValueCopy c t vp mr dst t' ops) :
    mr.mi.valueSize ≤ 64 := by
  have hle : copySizeModelled mr.mi.valueSize = true → mr.mi.valueSize ≤ 64 := fun hsize => by
    simp only [copySizeModelled, Bool.or_eq_true, beq_iff_eq] at hsize
    omega
  cases h with
  | stack _ hsize => exact hle hsize
  | wide _ _ hsize => exact hle hsize
  | bytes _ _ _ hmax => exact hmax

/-- The roles of what the arm for slot `i` does. -/
def slotRoles (mi : MapInfo) (vp : RegInfo) (insert : Bool) (i : Nat) : List Role :=
  (if insert then [.store (.tag i), .store (.presence i)] else []) ++ copyRoles mi vp i

theorem valueOff_lt {i : Nat} (hsize : keySizeModelled mr.mi = true) (hvalue : mr.mi.valueSize ≤ 64)
    (hslots : mr.mi.nslots ≤ numTmps) (hi : i < mr.mi.nslots) :
    mr.mi.tagOff i < 2 ^ 64 ∧ mr.mi.valueOff i + mr.mi.valueSize < 2 ^ 64 := by
  have hkey : mr.mi.keySize ≤ 8 := by
    simp only [keySizeModelled, Bool.or_eq_true, beq_iff_eq] at hsize
    omega
  simp only [numTmps] at hslots
  have h₁ : i * mr.mi.keySize ≤ 64 * 8 := Nat.mul_le_mul (by omega) hkey
  have h₂ : mr.mi.nslots * mr.mi.keySize ≤ 64 * 8 := Nat.mul_le_mul hslots hkey
  have h₃ : i * mr.mi.valueSize ≤ 64 * 64 := Nat.mul_le_mul (by omega) hvalue
  simp only [MapInfo.tagOff, MapInfo.tagBase, MapInfo.valueOff, MapInfo.valueBase]
  constructor
  · omega
  · split <;> omega

theorem fullOff_lt (hsize : keySizeModelled mr.mi = true) (hvalue : mr.mi.valueSize ≤ 64)
    (hslots : mr.mi.nslots ≤ numTmps) : mr.mi.fullOff < 2 ^ 64 := by
  have hkey : mr.mi.keySize ≤ 8 := by
    simp only [keySizeModelled, Bool.or_eq_true, beq_iff_eq] at hsize
    omega
  simp only [numTmps] at hslots
  have h₁ : mr.mi.nslots * mr.mi.keySize ≤ 64 * 8 := Nat.mul_le_mul hslots hkey
  have h₂ : mr.mi.nslots * mr.mi.valueSize ≤ 64 * 64 := Nat.mul_le_mul hslots hvalue
  simp only [MapInfo.fullOff, MapInfo.valueBase]
  split <;> omega

theorem slotOps_made {tTag i : Nat} {insert : Bool} {copy : List Op}
    (hsize : keySizeModelled mr.mi = true) (hslots : mr.mi.nslots ≤ numTmps)
    (hi : i < mr.mi.nslots)
    (hcopy : ValueCopy c t vp mr (konstN (mr.mi.valueOff i)) t' copy) :
    σ.Made (runOps len σ (slotOps mr (widthName mr.mi.keySize) tTag insert i copy))
      ((slotRoles mr.mi vp insert i).flatMap (Role.accesses c mr kp vp σ)) := by
  obtain ⟨htag, hvalue⟩ := valueOff_lt hsize hcopy.valueSize_le hslots hi
  have hto : ∀ {τ : State}, CopiesTo mr.mi t.tmpNext i (konstN (mr.mi.valueOff i)) τ :=
    fun τ _ => Operand.eval_konstN (w := .w64) (by rw [Width.bits_w64]; omega)
  have hcopied : ∀ {τ : State}, τ.Made (runOps len τ (copy ++ [setOp (hReg 0) 0]))
      ((copyRoles mr.mi vp i).flatMap (Role.accesses c mr kp vp τ) ++ []) := fun {τ} =>
    runOps_made_append (hcopy.made _ hto hvalue) setOp_made
  cases insert with
  | false => simpa [slotOps, slotRoles] using hcopied (τ := σ)
  | true =>
    have hstoreTag := @store_made len σ (widthName mr.mi.keySize) mr.region _ _ (hdr tTag)
      (Operand.eval_konstN (w := .w64) htag)
    rw [widthName_bytes hsize] at hstoreTag
    set σ₁ := (Op.store (widthName mr.mi.keySize) mr.region (konstN (mr.mi.tagOff i))
      (hdr tTag)).eval len σ with hσ₁
    have hpres := @store_made len σ₁ .w8 mr.region _ _ (konst 1)
      (Operand.eval_konstN (w := .w64) (k := i) (by
        rw [Width.bits_w64]; simp only [numTmps] at hslots; omega))
    have hrest := (hstoreTag.trans hpres).trans hcopied
    have hkeep : ∀ {w : Width} {r : Nat} {a v : Operand} {τ : State} (h : Nat),
        ((Op.store w r a v).eval len τ).hdr h = τ.hdr h := fun _ =>
      Op.Writes.hdr (T := fun _ => False) (Op.writes_store.mpr trivial) len _ id
    rw [Role.accesses_congr (σ := σ)
      (by rw [hkeep, hσ₁, hkeep]) (by rw [hkeep, hσ₁, hkeep])] at hrest
    simpa [slotOps, slotRoles, Role.accesses, Part.range, ← hσ₁] using hrest

/-- The arm of a slot. -/
theorem mem_armsOf {tTag mark : Nat} {insert : Bool} {entries : Nat → List MatchEntry}
    {is : List Nat} {os : List (List Op)} {arm : Arm}
    (h : SlotArms c t mr vp kw tTag mark insert is os) (harm : arm ∈ armsOf entries is os) :
    ∃ i ∈ is, ∃ t₁ t₂ copy, ValueCopy c t₁ vp mr (konstN (mr.mi.valueOff i)) t₂ copy ∧
      t₁.tmpNext = mark ∧ arm = (entries i, slotOps mr kw tTag insert i copy) := by
  induction h with
  | nil => simp [armsOf] at harm
  | cons hfirst hrest ih =>
    simp only [armsOf, List.zipWith_cons_cons, List.mem_cons] at harm ih
    rcases harm with rfl | harm
    · obtain ⟨t₁, t₂, copy, _, hmark, hcopy, rfl⟩ := hfirst
      exact ⟨_, by simp, t₁, t₂, copy, hcopy, hmark, rfl⟩
    · obtain ⟨i, hi, hrest⟩ := ih harm
      exact ⟨i, by simp [hi], hrest⟩

/-! ## Calls -/

/-- The run of a call: its operations and, when it has arms, the first one whose entries
hold after them, whatever the program counter is. -/
def CallRun (len : Nat → Nat) (σ : State) (ops : List Op) (r : Option (List Arm)) (σ' : State) :
    Prop :=
  match r with
  | none => σ' = runOps len σ ops
  | some arms => ∃ v arm,
      arms.find? (fun a => a.1.all
      (MatchEntry.holds ((runOps len σ ops).setHdr hPc v))) = some arm ∧
      σ' = runOps len ((runOps len σ ops).setHdr hPc v) arm.2

/-- The roles of a call on a map, and the slot it selects to write, if any. -/
inductive CallRoles (mi : MapInfo) (st : AbsState) : Option Nat → List Role → Prop where
  | arrayLookup (harray : mi.isArray = true) :
      CallRoles mi st none (if constKey (st.reg 2) st = none then keyRoles (st.reg 2) else [])
  | hashLookup (htag : mi.tagged = true) :
      CallRoles mi st none (keyRoles (st.reg 2) ++ scanRoles mi)
  | outOfRange (harray : mi.isArray = true) : CallRoles mi st none []
  | arrayUpdate {k : Nat} (harray : mi.isArray = true) (hk : k < mi.nslots) :
      CallRoles mi st (some k) (copyRoles mi (st.reg 3) k)
  | noSlot (htag : mi.tagged = true) :
      CallRoles mi st none (keyRoles (st.reg 2) ++ scanRoles mi ++ [.load .capacity])
  | slot {i : Nat} (insert : Bool) (htag : mi.tagged = true) (hi : i < mi.nslots) :
      CallRoles mi st (some i) (keyRoles (st.reg 2) ++ scanRoles mi ++ [.load .capacity] ++
        slotRoles mi (st.reg 3) insert i)

section Roles

variable {mi : MapInfo} {slot : Option Nat} {roles : List Role} {ρ : Role}

theorem keyRoles_respects (h : ρ ∈ keyRoles kp) : ρ.Respects mi slot := by
  unfold keyRoles at h
  split at h
  · cases h
  · rw [List.mem_singleton.mp h]
    trivial

theorem scanRoles_respects (htag : mi.tagged = true) (h : ρ ∈ scanRoles mi) :
    ρ.Respects mi slot := by
  simp only [scanRoles, List.mem_append, List.mem_map, List.mem_range] at h
  rcases h with ⟨i, hi, rfl⟩ | ⟨i, hi, rfl⟩
  · exact hi
  · exact ⟨htag, hi⟩

theorem copyRoles_respects {i : Nat} (hi : i < mi.nslots) (h : ρ ∈ copyRoles mi vp i) :
    ρ.Respects mi (some i) := by
  unfold copyRoles at h
  split at h
  · rw [List.mem_singleton.mp h]
    exact ⟨hi, i, rfl, rfl, fun _ => rfl⟩
  · split at h
    · simp only [List.mem_cons, List.not_mem_nil, or_false] at h
      rcases h with rfl | rfl
      · trivial
      · exact ⟨hi, i, rfl, rfl, fun _ => rfl⟩
    · simp only [List.mem_flatMap, List.mem_range, List.mem_cons, List.not_mem_nil, or_false] at h
      obtain ⟨j, hj, rfl | rfl⟩ := h
      · trivial
      · exact ⟨hj, hi, i, rfl, rfl, fun _ => rfl⟩

theorem slotRoles_respects {i : Nat} {insert : Bool} (htag : mi.tagged = true)
    (harray : mi.isArray = false) (hi : i < mi.nslots) (h : ρ ∈ slotRoles mi vp insert i) :
    ρ.Respects mi (some i) := by
  rcases List.mem_append.mp h with h | h
  · split at h
    · simp only [List.mem_cons, List.not_mem_nil, or_false] at h
      rcases h with rfl | rfl
      · exact ⟨⟨htag, hi⟩, i, rfl, rfl, fun ha => by simp [harray] at ha⟩
      · exact ⟨hi, i, rfl, rfl, fun ha => by simp [harray] at ha⟩
    · cases h
  · exact copyRoles_respects hi h

theorem isArray_eq_false_of_tagged (h : mi.tagged = true) : mi.isArray = false := by
  have hf : mi.family = some .hash := by simpa [MapInfo.tagged] using h
  simp [MapInfo.isArray, hf]

/-- Every role of a call keeps to the layout. -/
theorem CallRoles.respects (h : CallRoles mi st slot roles) (hρ : ρ ∈ roles) :
    ρ.Respects mi slot := by
  cases h with
  | arrayLookup =>
    split at hρ
    · exact keyRoles_respects hρ
    · cases hρ
  | hashLookup htag =>
    exact (List.mem_append.mp hρ).elim keyRoles_respects (scanRoles_respects htag)
  | outOfRange => cases hρ
  | arrayUpdate _ hk => exact copyRoles_respects hk hρ
  | noSlot htag =>
    simp only [List.mem_append, List.mem_singleton] at hρ
    rcases hρ with (h | h) | rfl
    · exact keyRoles_respects h
    · exact scanRoles_respects htag h
    · exact htag
  | slot insert htag hi =>
    simp only [List.mem_append, List.mem_singleton] at hρ
    rcases hρ with ((h | h) | rfl) | h
    · exact keyRoles_respects h
    · exact scanRoles_respects htag h
    · exact htag
    · exact slotRoles_respects htag (isArray_eq_false_of_tagged htag) hi h

end Roles

variable (vp) in
theorem SlotRead.made {mi : MapInfo} (h : SlotRead c mi kp st (widthName mr.mi.keySize) t t' ops)
    (hsize : keySizeModelled mr.mi = true) :
    σ.Made (runOps len σ ops) ((if constKey kp st = none then keyRoles kp else []).flatMap
      (Role.accesses c mr kp vp σ)) := by
  cases h with
  | const hkey => simpa [hkey] using setOp_made
  | computed hkey _ hread =>
    have hmod := @made_of_into len (runOps len σ ‹List Op›)
      [.stateless .mod .w64 (hdr (hTmp (t.tmpNext + 1))) (konstN mi.nslots) (hTmp t.tmpNext)]
        (· = hTmp t.tmpNext)
      (by simp [Op.Into])
    have hall := runOps_made_append (hread.made vp (σ := σ) hsize) hmod
    simpa [hkey] using hall

theorem updateScanOps_made {b tKey : Nat} (hsize : keySizeModelled mr.mi = true)
    (hslots : mr.mi.nslots ≤ numTmps) (hfull : mr.mi.fullOff < 2 ^ 64) :
    σ.Made (runOps len σ (updateScanOps mr (widthName mr.mi.keySize) tKey b))
      ((scanRoles mr.mi ++ [Role.load .capacity]).flatMap (Role.accesses c mr kp vp σ₁)) := by
  have hcast : ∀ {τ : State} {frm into : Width} {a : Operand} {d : Nat},
      τ.Made ((Op.cast frm into a d).eval len τ) [] := fun {_ _ _ _ d} =>
    Op.Into.made (T := (· = d)) rfl
  have hload : ∀ {τ : State} {d : Nat}, τ.Made
    ((Op.load .w8 mr.region (konstN mr.mi.fullOff) d).eval
      len τ) [⟨false, mr.region, mr.mi.fullOff, 1⟩] := fun {_ _} =>
    load_made (w := .w8) (Operand.eval_konstN (w := .w64) hfull)
  have hlast : ∀ {τ : State}, τ.Made (runOps len τ
      [.cast .w64 (widthName mr.mi.keySize) (hdr tKey) (hTmp (b + 1 + 2 * mr.mi.nslots)),
        .load .w8 mr.region (konstN mr.mi.fullOff) (hTmp (b + 2 + 2 * mr.mi.nslots)),
        .cast .w8 .w64 (hdr (hTmp (b + 2 + 2 * mr.mi.nslots))) (hTmp (b + 3 + 2 * mr.mi.nslots))])
      [⟨false, mr.region, mr.mi.fullOff, 1⟩] := fun {_} => by
    simpa using hcast.trans (hload.trans hcast)
  rw [List.flatMap_append]
  exact runOps_made_append (scanOps_made hsize hslots)
    (by simpa [Role.accesses, Part.range] using hlast)

theorem arm_made {armOps : List Op} {as bs : List Access} {v : CrVal}
    (hblock : σ.Made (runOps len σ ops) as)
    (harm : ((runOps len σ ops).setHdr hPc v).Made
      (runOps len ((runOps len σ ops).setHdr hPc v) armOps) bs) :
    σ.Made (runOps len ((runOps len σ ops).setHdr hPc v) armOps) (as ++ bs) := by
  simpa using hblock.trans ((State.Made.setHdr _ hPc v).trans harm)

/-- An arm that only sets `r0`. -/
theorem result_arm_made {armOps : List Op} {as : List Access} {v : CrVal}
    (hblock : σ.Made (runOps len σ ops) as) (harm : ∀ op ∈ armOps, op.Into (· = hReg 0)) :
    σ.Made (runOps len ((runOps len σ ops).setHdr hPc v) armOps) as := by
  simpa using arm_made hblock (made_of_into harm)

/-- The accesses of a lookup are those of the key, and of the scan when there is one. -/
theorem LookupCall.roles {arms : List Arm} (h : LookupCall c idx st t t' ops mr arms)
    (hrun : CallRun len σ ops (some arms) σ') :
    ∃ roles, CallRoles mr.mi st none roles ∧
      σ.Made σ' (roles.flatMap (Role.accesses c mr (st.reg 2) vp σ)) := by
  obtain ⟨v, arm, harm, rfl⟩ := hrun
  have hmem := List.mem_of_find?_eq_some harm
  have hscan := h.scan
  split at hscan
  · rename_i harray
    obtain ⟨t₁, slotOps, _, hread, _, _, _, _, rfl, rfl⟩ := emitArrayLookup_accepts hscan
    refine ⟨_, .arrayLookup harray, ?_⟩
    have hoff : ∀ {τ : State}, τ.Made (runOps len τ
        (valueOffOps mr.mi (hTmp (t.called mr.m).tmpNext) (hTmp t₁.tmpNext))) [] :=
      made_of_into (T := (· = hTmp t₁.tmpNext)) (by simp [valueOffOps, Op.Into])
    have hcast : ∀ {τ : State}, τ.Made (runOps len τ (if constKey (st.reg 2) st = none then
        [.cast .w64 .w64 (hdr (hTmp (t.called mr.m).tmpNext))
        (hTmp (t₁.tmpNext + 1))] else [])) [] :=
      made_of_into (T := (· = hTmp (t₁.tmpNext + 1))) (by split <;> simp [Op.Into])
    have hblock := runOps_made_append
      (runOps_made_append (hread.made vp (σ := σ) h.keySize) hoff) hcast
    rw [List.append_nil, List.append_nil] at hblock
    refine result_arm_made hblock ?_
    simp only [arrayArms, List.mem_cons, List.not_mem_nil, or_false] at hmem
    rcases hmem with rfl | rfl <;> simp [assignOp, zeroOp, constOp, Op.Into]
  · rename_i harray
    have htag : mr.mi.tagged = true := by
      rcases h.family with hf | hf
      · simp [MapInfo.isArray, hf] at harray
      · simp [MapInfo.tagged, hf]
    obtain ⟨t₁, keyOps, _, hread, hle, rfl, rfl⟩ := emitTaggedLookup_accepts hscan
    refine ⟨_, .hashLookup htag, ?_⟩
    rw [List.flatMap_append]
    have hkey : σ.Made (runOps len σ keyOps) _ := hread.made vp h.keySize
    have hblock := runOps_made_append hkey
      (@scanOps_made c _ _ σ (st.reg 2) vp _ t₁.tmpNext
        h.keySize (by simp only [numTmps] at *; omega))
    refine result_arm_made hblock ?_
    simp only [lookupArms, List.mem_append, List.mem_map, List.mem_singleton] at hmem
    rcases hmem with ⟨i, _, rfl⟩ | rfl <;> simp [zeroOp, constOp, Op.Into]

/-- The accesses of an update are those of the key, the scan, and one copy. -/
theorem UpdateCall.roles {r : Option (List Arm)} (h : UpdateCall c idx st t r st' t' ops)
    (hmap : mapOf c.maps (st.reg 1) = some mr) (hsize : keySizeModelled mr.mi = true)
    (hmax : mr.mi.maxEntries < 2 ^ 32) (hrun : CallRun len σ ops r σ') :
    ∃ slot roles, CallRoles mr.mi st slot roles ∧
      σ.Made σ' (roles.flatMap (Role.accesses c mr (st.reg 2) (st.reg 3) σ)) := by
  cases h with
  | outOfRange hmap' harray =>
    obtain rfl := Option.some.inj (hmap.symm.trans hmap')
    obtain rfl := hrun
    exact ⟨none, [], .outOfRange harray, setOp_made⟩
  | @array mr' k _ _ _ hmap' harray hkey hk hslot _ hscan =>
    obtain rfl := Option.some.inj (hmap.symm.trans hmap')
    obtain rfl := hrun
    obtain ⟨t₁, slotOps, copy, _, hread, _, hcopy, rfl, _⟩ := emitArrayUpdate_accepts hscan
    refine ⟨some k, _, .arrayUpdate harray hslot, ?_⟩
    cases hread with
    | computed hnone => rw [hkey] at hnone; cases hnone
    | @const k' hkey' =>
      obtain rfl : k = k' := Option.some.inj (hkey.symm.trans hkey')
      -- the offset of the value fits a register
      have hvalue := hcopy.valueSize_le
      have hbase : mr.mi.valueBase = mr.mi.nslots := by
        have hf : mr.mi.family = some .array := by simpa [MapInfo.isArray] using harray
        simp [MapInfo.valueBase, MapInfo.tagged, hf]
      have hle : mr.mi.nslots ≤ mr.mi.maxEntries := by
        unfold MapInfo.nslots
        split <;> omega
      have hmul : k * mr.mi.valueSize ≤ 2 ^ 32 * 64 := Nat.mul_le_mul (by omega) hvalue
      have hfit : mr.mi.valueOff k + mr.mi.valueSize < 2 ^ 64 := by
        rw [MapInfo.valueOff, hbase]
        omega
      have hmod : k % mr.mi.nslots = k := Nat.mod_eq_of_lt hslot
      set n := (t.called mr.m).tmpNext with hn
      rw [List.append_assoc, List.append_assoc, runOps_append, hmod, runOps_cons, runOps_nil,
        setOp_eval (by omega), runOps_append,
        valueOffOps_eval (s := k) (by simp) (by omega) (by omega)]
      set τ := ((σ.setHdr (hTmp n) (.int .w64 k)).setHdr (hTmp (n + 1))
        (.int .w64 (k * mr.mi.valueSize))).setHdr (hTmp (n + 1))
        (.int .w64 (mr.mi.valueOff k)) with hτ
      have hmade : σ.Made τ [] := by
        simpa using (State.Made.setHdr σ (hTmp n) _).trans
          ((State.Made.setHdr _ (hTmp (n + 1)) _).trans
          (State.Made.setHdr _ (hTmp (n + 1)) _))
      have hto : CopiesTo mr.mi (n + 1 + 1) k (hdr (hTmp (n + 1))) τ := fun υ hυ => by
        have hnot : ¬IsCopyTmp (n + 1 + 1) (hTmp (n + 1)) := by
          simp [IsCopyTmp, hTmp_inj]
        exact Operand.eval_hdr ((hυ _ hnot).trans (by simp [hτ]))
      have hvalue : τ.Made (runOps len τ copy) _ := hcopy.made (st.reg 2) hto hfit
      have hall := hmade.trans (runOps_made_append hvalue
        (setOp_made (d := hReg 0) (v := 0)))
      have h₂ : ∀ i, hReg 2 ≠ hTmp i := fun _ => (hTmp_ne_hReg 2).symm
      have h₃ : ∀ i, hReg 3 ≠ hTmp i := fun _ => (hTmp_ne_hReg 3).symm
      rw [Role.accesses_congr (σ := σ) (by simp [hτ, h₂]) (by simp [hτ, h₃])] at hall
      simpa using hall
  | hash hmap' hfamily _ _ hscan =>
    obtain rfl := Option.some.inj (hmap.symm.trans hmap')
    obtain ⟨v, arm, harm, rfl⟩ := hrun
    have hmem := List.mem_of_find?_eq_some harm
    have htag : mr.mi.tagged = true := by simp [MapInfo.tagged, hfamily]
    obtain ⟨t₁, keyOps, overs, inserts, hlt, hread, hle, rfl, rfl, hovers, hinserts⟩ :=
      emitTaggedUpdate_accepts hscan
    have hslots : mr.mi.nslots ≤ numTmps := by omega
    set ops := keyOps ++ updateScanOps mr (widthName mr.mi.keySize)
      (hTmp (t.called mr.m).tmpNext) t₁.tmpNext with hops
    -- without slots the capacity byte is the first cell; with one, an arm copies the value
    have hfull : mr.mi.fullOff < 2 ^ 64 := by
      by_cases hzero : mr.mi.nslots = 0
      · simp [MapInfo.fullOff, MapInfo.valueBase, hzero]
      · obtain ⟨i, is, heq⟩ := List.exists_cons_of_ne_nil (by simpa using hzero :
          List.range mr.mi.nslots ≠ [])
        have harms := hovers
        rw [heq, SlotArms] at harms
        cases harms with
        | cons hfirst _ =>
          obtain ⟨_, _, _, _, _, hcopy, _⟩ := hfirst
          exact fullOff_lt hsize hcopy.valueSize_le hslots
    have hblock : σ.Made (runOps len σ ops)
        ((keyRoles (st.reg 2) ++ scanRoles mr.mi ++ [Role.load .capacity]).flatMap
          (Role.accesses c mr (st.reg 2) (st.reg 3) σ)) := by
      rw [List.append_assoc, List.flatMap_append]
      exact runOps_made_append (hread.made _ hsize) (updateScanOps_made hsize hslots hfull)
    -- the arms find `r2` and `r3` as the call did
    have hwrites : AllWrite IsScratch ops :=
      allWrite_append.mpr ⟨hread.writes hlt, updateScanOps_writes (by omega)⟩
    have hkeep : ∀ r : Fin 11, ((runOps len σ ops).setHdr hPc v).hdr (hReg r) = σ.hdr (hReg r) := by
      intro r
      have hne : hReg r ≠ hPc := by simp only [hReg, hPc]; omega
      rw [State.setHdr_hdr, if_neg hne,
        runOps_hdr hwrites len σ (not_isScratch_hReg ⟨r, by omega⟩)]
    have hslot : ∀ {i : Nat} {insert : Bool} {copy : List Op} {t₂ t₃ : Translator},
        i ∈ List.range mr.mi.nslots → ValueCopy c t₂ (st.reg 3) mr (konstN (mr.mi.valueOff i)) t₃
          copy →
        arm.2 = slotOps mr (widthName mr.mi.keySize)
        (hTmp (t₁.tmpNext + 1 + 2 * mr.mi.nslots)) insert i
          copy →
        ∃ slot roles, CallRoles mr.mi st slot roles ∧
          σ.Made (runOps len ((runOps len σ ops).setHdr hPc v) arm.2)
            (roles.flatMap (Role.accesses c mr (st.reg 2) (st.reg 3) σ)) := by
      intro i insert copy t₂ t₃ hi hcopy harm
      have hi : i < mr.mi.nslots := List.mem_range.mp hi
      have hmade := (@slotOps_made _ len ((runOps len σ ops).setHdr hPc v) _ _ (st.reg 2) _ _
        (hTmp (t₁.tmpNext + 1 + 2 * mr.mi.nslots)) _ insert) hsize hslots hi hcopy
      rw [Role.accesses_congr (hkeep 2) (hkeep 3), ← harm] at hmade
      refine ⟨some i, _, .slot insert htag hi, ?_⟩
      rw [List.flatMap_append]
      exact arm_made hblock hmade
    have hnone : (∀ op ∈ arm.2, op.Into (· = hReg 0)) → ∃ slot roles, CallRoles
      mr.mi st slot roles ∧
        σ.Made (runOps len ((runOps len σ ops).setHdr hPc v) arm.2)
          (roles.flatMap (Role.accesses c mr (st.reg 2) (st.reg 3) σ)) := fun hinto =>
      ⟨none, _, .noSlot htag, result_arm_made hblock hinto⟩
    simp only [updateArms, List.mem_append, List.mem_cons, List.not_mem_nil, or_false] at hmem
    rcases hmem with h | rfl | h | rfl
    · obtain ⟨i, hi, t₂, t₃, copy, hcopy, _, rfl⟩ := mem_armsOf hovers h
      exact hslot hi hcopy rfl
    · exact hnone (by simp [constOp, Op.Into])
    · obtain ⟨i, hi, t₂, t₃, copy, hcopy, _, rfl⟩ := mem_armsOf hinserts h
      exact hslot hi hcopy rfl
    · exact hnone (by simp [constOp, Op.Into])

/-- An accepted call is on a map with keys of an access width. -/
theorem translateCall_keySize {i : Insn} {r : Option (List Arm)}
    (h : (translateCall idx i st).Accepts c t (r, st') t' ops)
    (hmap : mapOf c.maps (st.reg 1) = some mr) : keySizeModelled mr.mi = true := by
  unfold translateCall at h
  split at h
  · simp at h
  split at h
  · obtain ⟨mr', _, _, hcall, _⟩ := emitMapLookup_accepts h
    obtain rfl := Option.some.inj (hcall.map.symm.trans hmap)
    exact hcall.keySize
  split at h
  · unfold emitMapUpdate at h
    obtain ⟨_, _, _, hc, _, h₁, rfl⟩ := accepts_bind.mp h
    obtain ⟨rfl, rfl, rfl⟩ := accepts_config.mp hc
    simp only [hmap] at h₁
    obtain ⟨_, _, _, hcheck, _, h₂, rfl⟩ := accepts_bind.mp h₁
    obtain ⟨rfl, rfl, rfl, _⟩ := checkMapModelled_accepts hcheck
    rw [if_neg (by decide)] at h₂
    split at h₂
    · simp at h₂
    · rename_i hsize
      simpa using hsize
  · simp at h

/-- An access of a role that is not a read through `r2` or `r3`: it is in the region, in the
part the role names. -/
theorem Role.Respects.access {mi : MapInfo} {slot : Option Nat} {ρ : Role} {a : Access}
    (h : ρ.Respects mr.mi slot) (ha : a ∈ ρ.accesses c mr kp vp σ) (hmi : mi = mr.mi) :
    (ρ = .key ∨ ρ = .value ∨ ∃ j, ρ = .valueByte j) ∨
      ∃ p : Part, p.Of mi ∧ (ρ = .load p ∨ ρ = .store p ∨ ∃ j, ρ = .storeByte p j) ∧
        a.region = mr.region ∧ Range.Within ⟨a.off, a.nbytes⟩ (p.range mi) ∧
        a.off + a.nbytes ≤ mi.length := by
  subst hmi
  have hlen : ∀ {p : Part} {r : Range}, p.Of mr.mi → r.Within (p.range mr.mi) →
      r.off + r.size ≤ mr.mi.length := fun hp hr => Nat.le_trans hr.2 (Part.end_le hp)
  cases ρ with
  | key => exact .inl (.inl rfl)
  | value => exact .inl (.inr (.inl rfl))
  | valueByte j => exact .inl (.inr (.inr ⟨j, rfl⟩))
  | load p =>
    obtain rfl := List.mem_singleton.mp ha
    exact .inr ⟨p, h, .inl rfl, rfl, .refl _, hlen h (.refl _)⟩
  | store p =>
    obtain rfl := List.mem_singleton.mp ha
    exact .inr ⟨p, h.1, .inr (.inl rfl), rfl, .refl _, hlen h.1 (.refl _)⟩
  | storeByte p j =>
    obtain rfl := List.mem_singleton.mp ha
    have hin : Range.Within ⟨(p.range mr.mi).off + j, 1⟩ (p.range mr.mi) := by
      have := h.1
      simp only [Range.Within]
      omega
    exact .inr ⟨p, h.2.1, .inr (.inr ⟨j, rfl⟩), rfl, hin, hlen h.2.1 hin⟩

/-- A cell a role stores into is a cell of the selected slot. -/
theorem Role.Respects.stores {slot : Option Nat} {ρ : Role} {a : Access} {rg k : Nat}
    (h : ρ.Respects mr.mi slot) (ha : a ∈ ρ.accesses c mr kp vp σ) (hstores : a.Stores rg k) :
    rg = mr.region ∧ ∃ i, ∃ p : Part, slot = some i ∧ p.Of mr.mi ∧ p.OfSlot i ∧
      (mr.mi.isArray = true → p = .value i) ∧ (p.range mr.mi).Contains k := by
  obtain ⟨hstore, rfl, hlo, hhi⟩ := hstores
  have hread : ∀ {o : Option Nat} {f : Nat → Access}, (∀ n, (f n).isStore = false) →
      a ∈ o.toList.map f → False := fun {o f} hf hmem => by
    obtain ⟨n, _, rfl⟩ := List.mem_map.mp hmem
    rw [hf] at hstore
    cases hstore
  cases ρ with
  | key => exact (hread (fun _ => rfl) ha).elim
  | value => exact (hread (fun _ => rfl) ha).elim
  | valueByte j => exact (hread (fun _ => rfl) ha).elim
  | load p =>
    obtain rfl := List.mem_singleton.mp ha
    cases hstore
  | store p =>
    obtain rfl := List.mem_singleton.mp ha
    obtain ⟨hp, i, hi, hslot, harray⟩ := h
    exact ⟨rfl, i, p, hi, hp, hslot, harray, hlo, hhi⟩
  | storeByte p j =>
    obtain rfl := List.mem_singleton.mp ha
    obtain ⟨hj, hp, i, hi, hslot, harray⟩ := h
    refine ⟨rfl, i, p, hi, hp, hslot, harray, ?_⟩
    simp only [Range.Contains]
    dsimp only at hlo hhi
    omega

/-- The parts of a map tile its region. On every run of an accepted call on it, the accesses
are those of the call's roles in turn; all but the reads through `r2` and `r3` are in the
region, in the part their role names, and the run changes no cell but those of the slot it
selects. -/
theorem map_accesses_respect_layout (c : Config) (mr : MapRef) (hkey : 0 < mr.mi.keySize)
    (hvalue : 0 < mr.mi.valueSize) :
    ((∀ x, (∃ p : Part, p.Of mr.mi ∧ (p.range mr.mi).Contains x) ↔ x < mr.mi.length) ∧
      ∀ p q : Part, p.Of mr.mi → q.Of mr.mi → p ≠ q →
        (p.range mr.mi).Disjoint (q.range mr.mi)) ∧
    ∀ {idx : Nat} {i : Insn} {st st' : AbsState} {t t' : Translator} {ops : List Op}
      {r : Option (List Arm)} {len : Nat → Nat} {σ σ' : State},
      (translateCall idx i st).Accepts c t (r, st') t' ops →
      mapOf c.maps (st.reg 1) = some mr → mr.mi.maxEntries < 2 ^ 32 → CallRun len σ ops r σ' →
      ∃ slot roles, CallRoles mr.mi st slot roles ∧
        σ'.log = σ.log ++ roles.flatMap (Role.accesses c mr (st.reg 2) (st.reg 3) σ) ∧
        (∀ ρ ∈ roles, ρ.Respects mr.mi slot ∧
          ∀ a ∈ ρ.accesses c mr (st.reg 2) (st.reg 3) σ,
            (ρ = .key ∨ ρ = .value ∨ ∃ j, ρ = .valueByte j) ∨
            ∃ p : Part, p.Of mr.mi ∧ (ρ = .load p ∨ ρ = .store p ∨ ∃ j, ρ = .storeByte p j) ∧
              a.region = mr.region ∧ Range.Within ⟨a.off, a.nbytes⟩ (p.range mr.mi) ∧
              a.off + a.nbytes ≤ mr.mi.length) ∧
        ∀ rg k, σ'.mem rg k ≠ σ.mem rg k → rg = mr.region ∧
          ∃ j, ∃ p : Part, slot = some j ∧ p.Of mr.mi ∧ p.OfSlot j ∧
            (mr.mi.isArray = true → p = .value j) ∧ (p.range mr.mi).Contains k := by
  refine ⟨⟨fun _ => Part.exists_contains_iff hkey hvalue, fun _ _ => Part.disjoint⟩, ?_⟩
  intro idx i st st' t t' ops r len σ σ' h hmap hmax hrun
  have hsize := translateCall_keySize h hmap
  obtain ⟨slot, roles, hroles, hmade⟩ : ∃ slot roles, CallRoles mr.mi st slot roles ∧
      σ.Made σ' (roles.flatMap (Role.accesses c mr (st.reg 2) (st.reg 3) σ)) := by
    rcases translateCall_accepts h with ⟨_, mr', arms, rfl, hcall, _⟩ | ⟨_, hcall⟩
    · obtain rfl := Option.some.inj (hcall.map.symm.trans hmap)
      obtain ⟨roles, hroles, hmade⟩ := hcall.roles hrun
      exact ⟨none, roles, hroles, hmade⟩
    · exact hcall.roles hmap hsize hmax hrun
  refine ⟨slot, roles, hroles, hmade.log, fun ρ hρ => ⟨hroles.respects hρ, fun a ha =>
    (hroles.respects hρ).access ha rfl⟩, fun rg k hne => ?_⟩
  by_contra hno
  refine hne (hmade.mem rg k fun a ha hstores => hno ?_)
  obtain ⟨ρ, hρ, haρ⟩ := List.mem_flatMap.mp ha
  exact (hroles.respects hρ).stores haρ hstores

/-- A hash map of 64 entries with one slot. -/
def oneSlotRef : MapRef := ⟨0, ⟨"flows", 1, 4, 8, 64, 1⟩⟩

def oneSlotConfig : Config := ⟨ctxXdpMd, [oneSlotRef.mi], fun i => if i = 3 then some 0 else none⟩

/-- An update of that map, on zeroed regions. -/
theorem oneSlot_respects_layout :
    ∃ r st' t' ops σ', (translateCall 5 ⟨0x85, 0, 0, 0, 2⟩ updateState).Accepts oneSlotConfig .init
        (r, st') t' ops ∧
      CallRun (regionLen (declaredRegions oneSlotConfig))
      (State.initial fun _ _ => some 0) ops r σ' ∧
      ∃ slot roles, CallRoles oneSlotRef.mi updateState slot roles ∧
        σ'.log = roles.flatMap (Role.accesses oneSlotConfig oneSlotRef (updateState.reg 2)
          (updateState.reg 3) (State.initial fun _ _ => some 0)) := by
  obtain ⟨⟨r, st'⟩, hres⟩ : ∃ p, (translateCall 5 ⟨0x85, 0, 0, 0, 2⟩ updateState).result
      oneSlotConfig .init = some p := ⟨_, rfl⟩
  obtain ⟨t', ops, h⟩ := accepts_of_result hres
  obtain ⟨σ', hrun⟩ : ∃ σ', CallRun (regionLen (declaredRegions oneSlotConfig))
      (State.initial fun _ _ => some 0) ops r σ' := by
    cases r with
    | none => exact ⟨_, rfl⟩
    | some arms =>
      obtain ⟨arm, harm⟩ := (translateCall_default h).find?
        ((runOps (regionLen (declaredRegions oneSlotConfig)) (State.initial fun _ _ => some 0)
          ops).setHdr hPc .uninit)
      exact ⟨_, .uninit, arm, harm, rfl⟩
  obtain ⟨slot, roles, hroles, hlog, _⟩ := (map_accesses_respect_layout oneSlotConfig oneSlotRef
    (by decide) (by decide)).2 h rfl (by decide) hrun
  exact ⟨r, st', t', ops, σ', h, hrun, slot, roles, hroles, by simpa [State.initial] using hlog⟩

end Ect
