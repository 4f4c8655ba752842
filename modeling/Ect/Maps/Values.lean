-- SUMMARY: What the operations of a map call compute: the key the program passes, and the slot it selects.
import Ect.Ir.Cells
import Ect.Maps.Shapes

/-!
# Values of a map call

`KeyPassed` says which key a call passes: the bytes `r2` points at when the call is
reached. The operations a helper emits read that key, and an array access reduces it
modulo the number of slots.
-/

namespace Ect

open LittleEndian

variable {c : Config} {len : Nat → Nat} {σ : State} {t t' : Translator} {ops : List Op} {kw : Width}
  {st : AbsState} {kp : RegInfo} {key : Nat}

theorem hTmp_inj {i j : Nat} : hTmp i = hTmp j ↔ i = j := by simp [hTmp]

theorem hTmp_ne_hReg {i : Nat} (r : Fin 11) : hTmp i ≠ hReg r := by
  simp only [hTmp, hReg, ne_eq]
  omega

/-- A load of proper bytes inside the region. -/
theorem load_eval {w : Width} {r : Nat} {a : Operand} {target off : Nat} {bs : List Byte}
    (ha : a.eval σ .w64 = some off) (hin : off + w.bytes ≤ len r)
    (hbs : readCells (σ.mem r) off w.bytes = some bs) :
    (Op.load w r a target).eval len σ =
      (σ.addLog ⟨false, r, off, w.bytes⟩).setHdr target (.int w (leNat bs)) := by
  simp [Op.eval, ha, hin, loadVal, hbs]

theorem leNat_lt_pow_bits {w : Width} {bs : List Byte} (h : bs.length = w.bytes) :
    leNat bs < 2 ^ w.bits := by
  rw [w.pow_bits, ← h]
  exact leNat_lt bs

/-! ## The key -/

/-- The call passes `key` in the state `σ`: the slot of the frame `r2` points at holds it
at the key's width, or the bytes of the region from `r2` on are it. -/
inductive KeyPassed (c : Config) (t : Translator) (len : Nat → Nat) (σ : State) (kp : RegInfo)
    (kw : Width) (key : Nat) : Prop where
  | stack {sh : Nat} (htag : kp.tag = .stack) (hsh : t.stackHdrOf (-kp.off).toNat = some sh)
      (hkey : σ.hdr sh = .int kw key) (hlt : key < 2 ^ kw.bits)
  | region {off : Nat} {bs : List Byte} (htag : kp.tag ≠ .stack)
      (hoff : σ.hdr (hReg 2) = .int .w64 off) (hin : off + kw.bytes ≤ len (regionOf c.maps kp))
      (hbs : readCells (σ.mem (regionOf c.maps kp)) off kw.bytes = some bs) (hkey : key = leNat bs)

theorem KeyPassed.grows (h : KeyPassed c t len σ kp kw key) (hg : t.Grows t') :
    KeyPassed c t' len σ kp kw key := by
  cases h with
  | stack htag hsh hkey hlt => exact .stack htag (hg.keeps hsh) hkey hlt
  | region htag hoff hin hbs hkey => exact .region htag hoff hin hbs hkey

theorem KeyPassed.lt_pow_bits (h : KeyPassed c t len σ kp kw key) : key < 2 ^ kw.bits := by
  cases h with
  | stack _ _ _ hlt => exact hlt
  | region _ _ _ hbs hkey => exact hkey ▸ leNat_lt_pow_bits (readCells_length hbs)

theorem KeyPassed.lt (h : KeyPassed c t len σ kp kw key) : key < 2 ^ 64 :=
  Nat.lt_of_lt_of_le h.lt_pow_bits kw.pow_bits_le

/-- The number held where `r2` points, which the call reads as its key: that of the slot's
header, or of the bytes of the region. There is none where the header holds no number of
the key's width, or the bytes leave the region or are not all proper. -/
def heldKey (c : Config) (t : Translator) (len : Nat → Nat) (σ : State) (kp : RegInfo)
    (kw : Width) : Option Nat :=
  if kp.tag = .stack then ((σ.hdr (t.slotHdr (-kp.off).toNat)).asInt kw).map (· % 2 ^ 64)
  else
    ((σ.hdr (hReg 2)).asInt .w64).bind fun off =>
      if off + kw.bytes ≤ len (regionOf c.maps kp) then
        (readCells (σ.mem (regionOf c.maps kp)) off kw.bytes).map leNat
      else none

/-- A key that is passed is held where `r2` points. -/
theorem KeyPassed.heldKey (h : KeyPassed c t len σ kp kw key) :
    heldKey c t len σ kp kw = some key := by
  have hmod : key % 2 ^ 64 = key := Nat.mod_eq_of_lt h.lt
  cases h with
  | stack htag hsh hkey _ =>
    rw [Ect.heldKey, if_pos htag, Translator.slotHdr, hsh, Option.getD_some, hkey,
      CrVal.asInt_int, Option.map_some, hmod]
  | region htag hoff hin hbs hkey =>
    rw [Ect.heldKey, if_neg htag, hoff, CrVal.asInt_int, Option.bind_some, if_pos hin, hbs,
      Option.map_some, hkey]

/-- What a header holds after a computation: the number it gave, or an error. -/
def CrVal.ofNumber : Option Nat → CrVal
  | some n => .int .w64 n
  | none => .error

/-- A widening copies a number of the width it reads. -/
theorem cast_eval {s d : Nat} {w : Width} :
    ((Op.cast w .w64 (hdr s) d).eval len σ).hdr d =
      .ofNumber (((σ.hdr s).asInt w).map (· % 2 ^ 64)) := by
  simp only [Op.eval, hdr, Operand.eval, Width.bits_w64]
  cases (σ.hdr s).asInt w <;> simp [CrVal.ofNumber]

/-- An accepted call reads the number held where `r2` points. -/
theorem KeyRead.value (len : Nat → Nat) (σ : State) (h : KeyRead c t kp kw t' ops) :
    (runOps len σ ops).hdr (hTmp t.tmpNext) = .ofNumber (heldKey c t len σ kp kw) := by
  cases h with
  | stack htag _ _ _ _ _ _ _ hslot =>
    rw [runOps_cons, runOps_nil, cast_eval, heldKey, if_pos htag, hslot]
  | region htag _ _ =>
    rw [runOps_cons, runOps_cons, runOps_nil, cast_eval, heldKey, if_neg htag]
    congr 1
    simp only [Op.eval, hdr, Operand.eval]
    cases (σ.hdr (hReg 2)).asInt .w64 with
    | none => simp [CrVal.asInt]
    | some off =>
      simp only [Option.bind_some]
      split
      · cases hbs : readCells (σ.mem (regionOf c.maps kp)) off kw.bytes with
        | none => simp [loadVal, hbs, CrVal.asInt]
        | some bs =>
          have hlt : leNat bs < 2 ^ 64 :=
            Nat.lt_of_lt_of_le (leNat_lt_pow_bits (readCells_length hbs)) kw.pow_bits_le
          simpa [loadVal, hbs] using hlt
      · simp [CrVal.asInt]

/-- An accepted call reads the key the program passes. -/
theorem KeyRead.value_passed (h : KeyRead c t kp kw t' ops)
    (hkey : KeyPassed c t len σ kp kw key) :
    (runOps len σ ops).hdr (hTmp t.tmpNext) = .int .w64 key := by
  rw [h.value, hkey.heldKey, CrVal.ofNumber]

/-! ## The slot of an array access -/

/-- The number an array access goes by: the constant it tracks, or the number it reads. -/
def usedKey (c : Config) (t : Translator) (len : Nat → Nat) (σ : State) (st : AbsState)
    (kp : RegInfo) (kw : Width) : Option Nat :=
  (constKey kp st).or (heldKey c t len σ kp kw)

/-- The slot is the number an access goes by, modulo the slots. -/
theorem SlotRead.value (len : Nat → Nat) (σ : State) {mi : MapInfo}
    (h : SlotRead c mi kp st kw t t' ops) (hpos : 0 < mi.nslots) (hslots : mi.nslots < 2 ^ 64) :
    (runOps len σ ops).hdr (hTmp t.tmpNext) =
      .ofNumber ((usedKey c t len σ st kp kw).map (· % mi.nslots)) := by
  cases h with
  | @const k hconst =>
    have hlt : k % mi.nslots < 2 ^ 64 := Nat.lt_trans (Nat.mod_lt _ hpos) hslots
    rw [runOps_cons, runOps_nil, setOp_eval hlt, usedKey, hconst]
    simp [CrVal.ofNumber]
  | computed hconst _ hread =>
    have hval := hread.value len σ
    rw [runOps_append, runOps_cons, runOps_nil, usedKey, hconst, Option.none_or]
    change _ = CrVal.ofNumber (heldKey c t len σ kp kw) at hval
    -- the remainder of the number, or of the error
    cases hheld : heldKey c t len σ kp kw with
    | none =>
      rw [hheld, CrVal.ofNumber] at hval
      simp [Op.eval, hdr, Operand.eval, hval, CrVal.asInt, CrVal.ofNumber]
    | some k =>
      rw [hheld, CrVal.ofNumber] at hval
      have hlt : k % mi.nslots < 2 ^ 64 := Nat.lt_trans (Nat.mod_lt _ hpos) hslots
      rw [Op.eval_stateless (Operand.eval_hdr hval) (Operand.eval_konstN (w := .w64) hslots)]
      simpa [BinOp.eval, CrVal.ofNumber] using hlt

theorem KeyRead.tmpNext_lt (h : KeyRead c t kp kw t' ops) : t.tmpNext < t'.tmpNext := by
  cases h with
  | stack _ _ _ _ _ _ _ htmp => omega
  | region => exact Nat.lt_add_of_pos_right (by decide)

theorem SlotRead.tmpNext_lt {mi : MapInfo} (h : SlotRead c mi kp st kw t t' ops) :
    t.tmpNext < t'.tmpNext := by
  cases h with
  | const => exact Nat.lt_succ_self _
  | computed _ _ hread => exact Nat.lt_trans (Nat.lt_succ_self _) hread.tmpNext_lt

/-- The offset of the value in slot `s`. -/
theorem valueOffOps_eval {mi : MapInfo} {tSlot tVp s : Nat} (hs : σ.hdr (hTmp tSlot) = .int .w64 s)
    (hvs : mi.valueSize < 2 ^ 64) (hfit : mi.valueOff s < 2 ^ 64) :
    runOps len σ (valueOffOps mi (hTmp tSlot) (hTmp tVp)) =
      (σ.setHdr (hTmp tVp) (.int .w64 (s * mi.valueSize))).setHdr (hTmp tVp)
        (.int .w64 (mi.valueOff s)) := by
  have hoff : s * mi.valueSize + mi.valueBase = mi.valueOff s := Nat.add_comm _ _
  have hmul : s * mi.valueSize < 2 ^ 64 := by omega
  have hbase : mi.valueBase < 2 ^ 64 := by omega
  rw [valueOffOps, runOps_cons, Op.eval_stateless (Operand.eval_hdr hs)
    (Operand.eval_konstN (w := .w64) hvs)]
  simp only [BinOp.eval, Width.bits_w64, Nat.mod_eq_of_lt hmul]
  rw [runOps_cons, Op.eval_stateless
    (Operand.eval_hdr ((State.setHdr_hdr _ _ _ _).trans (if_pos rfl)))
    (Operand.eval_konstN (w := .w64) hbase)]
  simp only [BinOp.eval, Width.bits_w64, hoff, Nat.mod_eq_of_lt hfit, runOps_nil]

end Ect
